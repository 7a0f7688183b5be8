import GraphGrammar.Codec.GraphBytes
import GraphGrammar.Proofs.Codec.Layout
import GraphGrammar.Proofs.Codec.WrittenGraph

/-!
# Graphs as bytes are read as they were written

A graph whose numbers fit into eight bytes is read from its bytes as it was, whatever follows them.
Of other bytes, those are read that begin with a written graph that is accepted. What cannot be read
is told apart by its cause: bytes that begin with no written graph at all, an unsupported version,
and an endpoint that is no node, looked for in this order.

## Main definitions

* `GraphGrammar.WrittenGraph.Fits` — the numbers of a written graph fit into eight bytes.
* `GraphGrammar.WrittenGraph.Begins` — bytes begin with a written graph.

## Main results

* `GraphGrammar.ByteReader.undoes_writtenGraph` — the reader of written graphs undoes the writer.
* `GraphGrammar.Graph.ofBytes_reads_toBytes` — which bytes are read, as what, and which are not.
-/

namespace GraphGrammar

/-- The numbers of a written graph fit into the eight bytes that are set aside for each: its counts,
the lengths of its labels in bytes, and the endpoints of its edges. -/
structure WrittenGraph.Fits (w : WrittenGraph) : Prop where
  /-- The number of nodes. -/
  nodes : w.labels.length < 2 ^ 64
  /-- The labels of nodes. -/
  nodeLabel : ∀ label ∈ w.labels, label.utf8ByteSize < 2 ^ 64
  /-- The number of edges. -/
  edges : w.edges.length < 2 ^ 64
  /-- The endpoints and the labels of edges. -/
  edge : ∀ e ∈ w.edges, e.source < 2 ^ 64 ∧ e.target < 2 ^ 64 ∧ e.label.utf8ByteSize < 2 ^ 64

instance (w : WrittenGraph) : Decidable w.Fits :=
  decidable_of_iff (w.labels.length < 2 ^ 64 ∧ (∀ label ∈ w.labels, label.utf8ByteSize < 2 ^ 64) ∧
      w.edges.length < 2 ^ 64 ∧
      ∀ e ∈ w.edges, e.source < 2 ^ 64 ∧ e.target < 2 ^ 64 ∧ e.label.utf8ByteSize < 2 ^ 64)
    ⟨fun h => ⟨h.1, h.2.1, h.2.2.1, h.2.2.2⟩, fun h => ⟨h.nodes, h.nodeLabel, h.edges, h.edge⟩⟩

/-- The bytes begin with the written graph. -/
def WrittenGraph.Begins (w : WrittenGraph) (input : List UInt8) : Prop :=
  w.Fits ∧ w.toBytes <+: input

/-! ### The readers -/

namespace ByteReader

theorem undoes_version : version.Undoes SchemaVersion.toBytes fun _ => True := by
  intro input v rest
  simp only [version, undoes_word32.bind_eq_some_iff, Option.some.injEq, Prod.mk.injEq, true_and,
    SchemaVersion.toBytes, List.append_assoc]
  constructor
  · rintro ⟨major, _, rfl, minor, _, rfl, patch, _, rfl, rfl, rfl⟩
    rfl
  · rintro rfl
    exact ⟨_, _, rfl, _, _, rfl, _, _, rfl, rfl, rfl⟩

theorem undoes_edge : edge.Undoes Edge.toBytes fun e =>
    e.source < 2 ^ 64 ∧ e.target < 2 ^ 64 ∧ e.label.utf8ByteSize < 2 ^ 64 := by
  intro input e rest
  simp only [edge, undoes_word.bind_eq_some_iff, undoes_text.bind_eq_some_iff, Option.some.injEq,
    Prod.mk.injEq, Edge.toBytes, List.append_assoc]
  constructor
  · rintro ⟨source, _, hsource, rfl, target, _, htarget, rfl, label, _, hlabel, rfl, rfl, rfl⟩
    exact ⟨⟨hsource, htarget, hlabel⟩, rfl⟩
  · rintro ⟨⟨hsource, htarget, hlabel⟩, rfl⟩
    exact ⟨_, _, hsource, rfl, _, _, htarget, rfl, _, _, hlabel, rfl, rfl, rfl⟩

/-- **Written graphs.** -/
theorem undoes_writtenGraph : writtenGraph.Undoes WrittenGraph.toBytes WrittenGraph.Fits := by
  intro input w rest
  simp only [writtenGraph, undoes_version.bind_eq_some_iff,
    (undoes_list undoes_text).bind_eq_some_iff, (undoes_list undoes_edge).bind_eq_some_iff,
    Option.some.injEq, Prod.mk.injEq, true_and, WrittenGraph.toBytes, List.append_assoc]
  constructor
  · rintro ⟨v, _, rfl, labels, _, ⟨hnodes, hlabels⟩, rfl, edges, _, ⟨hcount, hedges⟩, rfl, rfl, rfl⟩
    exact ⟨⟨hnodes, hlabels, hcount, hedges⟩, rfl⟩
  · rintro ⟨⟨hnodes, hlabels, hcount, hedges⟩, rfl⟩
    exact ⟨_, _, rfl, _, _, ⟨hnodes, hlabels⟩, rfl, _, _, ⟨hcount, hedges⟩, rfl, rfl, rfl⟩

end ByteReader

namespace Graph

variable {input : List UInt8}

theorem ofBytes_of_begins {w : WrittenGraph} (h : w.Begins input) : ofBytes input = w.accept := by
  obtain ⟨hfits, rest, hrest⟩ := h
  have hread := (ByteReader.undoes_writtenGraph input w rest).mpr ⟨hfits, hrest.symm⟩
  rw [ofBytes, hread]

theorem exists_begins_or_ofBytes_eq (input : List UInt8) :
    (∃ w : WrittenGraph, w.Begins input) ∨ ofBytes input = .error (.unreadable .bytes) := by
  cases hread : ByteReader.writtenGraph input with
  | none => exact Or.inr (by rw [ofBytes, hread])
  | some found =>
    obtain ⟨hfits, hinput⟩ := (ByteReader.undoes_writtenGraph input found.1 found.2).mp hread
    exact Or.inl ⟨found.1, hfits, found.2, hinput.symm⟩

/-- **Graphs as bytes.** A graph whose numbers fit is read from its bytes, whatever follows them.
Any bytes give a graph exactly if they begin with a written graph that has a supported version and
edges between its nodes, and then they give this graph. All other bytes are refused: for what they
are if they begin with no written graph, otherwise for the version, and last for an endpoint. -/
theorem ofBytes_reads_toBytes :
    (∀ g : Graph, g.written.Fits → ∀ rest, ofBytes (g.toBytes ++ rest) = .ok g) ∧
    ∀ input : List UInt8,
      (∀ g : Graph, ofBytes input = .ok g ↔ ∃ w : WrittenGraph, w.Begins input ∧ w.IsSupported ∧
        w.EndpointsExist ∧ g.labels = w.labels ∧ g.edges = w.edges) ∧
      ((¬∃ w : WrittenGraph, w.Begins input) →
        ∃ fault, ofBytes input = .error fault ∧ fault.report.code = "deserialize-bytes") ∧
      ∀ w : WrittenGraph, w.Begins input →
        (¬w.IsSupported →
          ∃ fault, ofBytes input = .error fault ∧ fault.report.code = "schema-mismatch") ∧
        (w.IsSupported → ¬w.EndpointsExist →
          ∃ fault, ofBytes input = .error fault ∧ fault.report.code = "unknown-node") := by
  refine ⟨fun g hfits rest => ?_, fun input => ⟨fun g => ⟨fun hok => ?_, ?_⟩, fun hnone => ?_,
    fun w hbegins => ⟨fun hversion => ?_, fun hversion hendpoints => ?_⟩⟩⟩
  · have hbegins : g.written.Begins (g.toBytes ++ rest) := ⟨hfits, List.prefix_append _ _⟩
    rw [ofBytes_of_begins hbegins, WrittenGraph.accept_written]
  · rcases exists_begins_or_ofBytes_eq input with ⟨w, hbegins⟩ | herror
    · rw [ofBytes_of_begins hbegins] at hok
      exact ⟨w, hbegins, WrittenGraph.accept_eq_ok_iff.mp hok⟩
    · rw [herror] at hok
      cases hok
  · rintro ⟨w, hbegins, haccepted⟩
    rw [ofBytes_of_begins hbegins]
    exact WrittenGraph.accept_eq_ok_iff.mpr haccepted
  · exact ⟨_, (exists_begins_or_ofBytes_eq input).resolve_left hnone, rfl⟩
  · rw [ofBytes_of_begins hbegins, WrittenGraph.accept_of_not_isSupported hversion]
    exact ⟨_, rfl, rfl⟩
  · obtain ⟨v, hv⟩ := WrittenGraph.accept_of_not_endpointsExist hversion hendpoints
    rw [ofBytes_of_begins hbegins, hv]
    exact ⟨_, rfl, rfl⟩

/-- A link and a loop, with an empty label and one beyond ASCII. -/
def linkAndLoop : Graph := ⟨["ä", ""], [⟨1, 0, "-"⟩, ⟨1, 1, "→"⟩], by decide⟩

/-- The link and the loop under a version that is not supported. -/
def linkAndLoopAhead : WrittenGraph := ⟨⟨1, 1, 0⟩, linkAndLoop.labels, linkAndLoop.edges⟩

/-- An edge to a node that does not exist. -/
def looseEnd : WrittenGraph := ⟨⟨1, 0, 7⟩, ["ä"], [⟨0, 1, "-"⟩]⟩

/-- A graph with a byte behind it, no bytes, a version ahead and a loose end. -/
theorem ofBytes_reads_toBytes_linkAndLoop :
    (linkAndLoop.written.Fits ∧ ofBytes (linkAndLoop.toBytes ++ [7]) = .ok linkAndLoop) ∧
    ((¬∃ w : WrittenGraph, w.Begins []) ∧
      ∃ fault, ofBytes [] = .error fault ∧ fault.report.code = "deserialize-bytes") ∧
    (linkAndLoopAhead.Begins linkAndLoopAhead.toBytes ∧ ¬linkAndLoopAhead.IsSupported ∧
      ∃ fault, ofBytes linkAndLoopAhead.toBytes = .error fault ∧
        fault.report.code = "schema-mismatch") ∧
    (looseEnd.Begins looseEnd.toBytes ∧ looseEnd.IsSupported ∧ ¬looseEnd.EndpointsExist ∧
      ∃ fault, ofBytes looseEnd.toBytes = .error fault ∧ fault.report.code = "unknown-node") := by
  have hfits : linkAndLoop.written.Fits := by decide +kernel
  have hnone : ¬∃ w : WrittenGraph, w.Begins [] := by
    rintro ⟨w, -, hprefix⟩
    have hlength := congrArg List.length (List.prefix_nil.mp hprefix)
    simp [WrittenGraph.toBytes, SchemaVersion.toBytes, length_littleEndian] at hlength
  have hahead : linkAndLoopAhead.Begins linkAndLoopAhead.toBytes :=
    ⟨by decide +kernel, List.prefix_refl _⟩
  have hloose : looseEnd.Begins looseEnd.toBytes := ⟨by decide +kernel, List.prefix_refl _⟩
  have hversion : ¬linkAndLoopAhead.IsSupported := by decide
  have hsupported : looseEnd.IsSupported := by decide
  have hendpoints : ¬looseEnd.EndpointsExist := by decide
  exact ⟨⟨hfits, ofBytes_reads_toBytes.1 _ hfits _⟩,
    ⟨hnone, (ofBytes_reads_toBytes.2 _).2.1 hnone⟩,
    ⟨hahead, hversion, ((ofBytes_reads_toBytes.2 _).2.2 _ hahead).1 hversion⟩,
    hloose, hsupported, hendpoints,
    ((ofBytes_reads_toBytes.2 _).2.2 _ hloose).2 hsupported hendpoints⟩

end Graph

end GraphGrammar
