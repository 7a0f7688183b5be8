import GraphGrammar.Graph.Composite
import GraphGrammar.Graph.Components
import GraphGrammar.Graph.Families
import GraphGrammar.Graph.Renumber
import GraphGrammar.Symmetry.Automorphism
import GraphGrammar.Symmetry.Isomorphism
import GraphGrammar.Rule.Side
import GraphGrammar.Rule.SideTable
import GraphGrammar.Graph.Indexed
import GraphGrammar.Graph.SlotTable
import GraphGrammar.Codec.IndexedGraph
import GraphGrammar.Rewrite.Step
import GraphGrammar.Graph.Fingerprint
import GraphGrammar.Graph.Sample
import GraphGrammar.Rewrite.BucketTable
import GraphGrammar.Rewrite.DepthFirst
import GraphGrammar.Codec.ConfigYaml
import GraphGrammar.Codec.GraphBytes
import GraphGrammar.Codec.ReportJson
import GraphGrammar.Codec.RuleJson
import GraphGrammar.Graph.Ring
import GraphGrammar.Json.Decode
import GraphGrammar.Json.Writer
import GraphGrammar.Proofs.Arena.Hosts
import GraphGrammar.Proofs.Arena.Spread
import GraphGrammar.Proofs.Graph.Components
import GraphGrammar.Proofs.Loops
import GraphGrammar.Proofs.Matching.Assignment
import GraphGrammar.Proofs.Matching.Enumeration
import GraphGrammar.Proofs.Matching.Match
import GraphGrammar.Proofs.Matching.Naturality
import GraphGrammar.Proofs.Matching.Ordered
import GraphGrammar.Proofs.Rewrite.Addition
import GraphGrammar.Proofs.Rewrite.Applicable
import GraphGrammar.Proofs.Rewrite.Compaction
import GraphGrammar.Proofs.Rewrite.ComponentCopies
import GraphGrammar.Proofs.Rewrite.Copied
import GraphGrammar.Proofs.Rewrite.Derivation
import GraphGrammar.Proofs.Rewrite.Meaning
import GraphGrammar.Proofs.Rewrite.SymmetryBreaking
import GraphGrammar.Proofs.Rewrite.BucketTable
import GraphGrammar.Proofs.Rewrite.Course
import GraphGrammar.Proofs.Rewrite.Composition
import GraphGrammar.Proofs.Rewrite.Outcomes
import GraphGrammar.Proofs.Rewrite.Success
import GraphGrammar.Proofs.Symmetry.Representatives
import GraphGrammar.Proofs.Rewrite.OwnSide
import GraphGrammar.Proofs.Matching.Control
import GraphGrammar.Proofs.Rewrite.SplitCopies
import GraphGrammar.Proofs.Rewrite.Independence
import GraphGrammar.Proofs.Composite.Flattening
import GraphGrammar.Proofs.Composite.Hosts
import GraphGrammar.Proofs.Codec.GraphBytes
import GraphGrammar.Proofs.Codec.GraphJson
import GraphGrammar.Proofs.Codec.RuleJson
import GraphGrammar.Proofs.Arena.Reached
import GraphGrammar.Proofs.Arena.SlotTable
import GraphGrammar.Proofs.Rewrite.Evaluations
import GraphGrammar.Proofs.Symmetry.Listing
import GraphGrammar.Proofs.Graph.Fingerprint
import GraphGrammar.Proofs.Graph.Reached
import GraphGrammar.Proofs.Rule.SideTable
import GraphGrammar.Proofs.Rule.SideComponents
import GraphGrammar.Proofs.Symmetry.Orbits
import GraphGrammar.Proofs.Matching.Ascending
import GraphGrammar.Proofs.Rewrite.Relabel
import GraphGrammar.Proofs.Composite.HostTable
import GraphGrammar.Proofs.Graph.Renumbering
import GraphGrammar.Proofs.Matching.Judgement
import GraphGrammar.Proofs.Rewrite.Cover
import GraphGrammar.Proofs.Graph.SetCalls
import GraphGrammar.Proofs.Matching.HalfEdges
import GraphGrammar.Proofs.Matching.PlannedLinks
