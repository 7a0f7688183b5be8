import GraphGrammar.Codec.RuleJson
import GraphGrammar.Proofs.Codec.ConstraintJson
import GraphGrammar.Proofs.Codec.GraphJson
import GraphGrammar.Proofs.Json.Value

/-!
# Rules are read as they were written

A rule whose numbers have 64 bits is read from its text as it was, with all its texts and with the
distinction between what is absent and what is empty, provided that its edges, constraints and
directives refer to its nodes. Otherwise the text is refused for the first reference that does not.

## Main definitions

* `GraphGrammar.Rule.RefersBelow` — all references of a rule are below a bound.

## Main results

* `GraphGrammar.WrittenRule.ofJson?_toJson` — a written rule is read from its value.
* `GraphGrammar.Rule.ofJsonText_toJsonText` — what becomes of a rule that is written and read.
-/

namespace GraphGrammar

/-! ### Optional fields -/

namespace Json

variable {α : Type}

theorem lookup_optionalField (name : String) (toJson : α → Json) (value : Option α)
    (name' : String) : (optionalField name toJson value).lookup name' =
      if name' == name then value.map toJson else none := by
  cases value with
  | none => simp [optionalField]
  | some a =>
    simp only [optionalField, Option.map_some, Option.toList_some, List.lookup_cons,
      List.lookup_nil]
    cases name' == name <;> rfl

theorem sublist_optionalField (name : String) (toJson : α → Json) (value : Option α) :
    ((optionalField name toJson value).map Prod.fst).Sublist [name] := by
  cases value with
  | none => exact List.nil_sublist _
  | some a => exact List.Sublist.refl _

end Json

/-! ### Parts of a rule -/

theorem NodeRole.ofName?_name (role : NodeRole) : ofName? role.name = some role := by
  cases role <;> decide

theorem EdgeRole.ofName?_name (role : EdgeRole) : ofName? role.name = some role := by
  cases role <;> decide

theorem RuleNode.ofJson?_toJson (n : RuleNode) : ofJson? n.toJson = some n := by
  have hnewLabel : Json.withDefault? none (Json.nullable? Json.text?)
      (n.newLabel.map Json.text) = some n.newLabel :=
    Json.withDefault?_nullable? nofun fun _ _ => rfl
  have hnames := (List.Sublist.refl ["context", "label"]).append
    (Json.sublist_optionalField "right_label" Json.text n.newLabel)
  rw [ofJson?, toJson, Json.members?_record (by decide) (by simpa using hnames)]
  simp [List.lookup_cons, Json.lookup_optionalField, NodeRole.ofName?_name, hnewLabel]

theorem RuleEdge.ofJson?_toJson {e : RuleEdge} (hsource : e.source < 2 ^ 64)
    (htarget : e.target < 2 ^ 64) : ofJson? e.toJson = some e := by
  simp [ofJson?, toJson, Json.members?_record, List.lookup_cons, Json.count?_natural hsource,
    Json.count?_natural htarget, EdgeRole.ofName?_name]

/-- A directive refers to nodes below a bound. -/
structure Rerouting.RefersBelow (d : Rerouting) (n : Nat) : Prop where
  /-- The source. -/
  source : d.source < n
  /-- The paste target. -/
  pasteTarget : d.pasteTarget < n
  /-- The members of the target filter. -/
  targetFilter : ∀ nodes ∈ d.targetFilter, ∀ v ∈ nodes.toList, v < n

theorem Rerouting.ofJson?_toJson {d : Rerouting} (h : d.RefersBelow (2 ^ 64)) :
    ofJson? d.toJson = some d := by
  have htargetFilter : Json.withDefault? none (Json.nullable? (Json.set? Json.count?))
      (d.targetFilter.map fun nodes => .array (nodes.toList.map Json.natural)) =
      some d.targetFilter :=
    Json.withDefault?_nullable? nofun fun nodes hnodes =>
      Json.set?_map fun v hv => Json.count?_natural (h.targetFilter nodes hnodes v hv)
  have hedgeLabels : Json.withDefault? none (Json.nullable? (Json.set? Json.text?))
      (d.edgeLabels.map SortedSet.labelsToJson) = some d.edgeLabels :=
    Json.withDefault?_nullable? nofun fun labels _ => Constraint.labels?_labelsToJson labels
  have hfilterName := Json.sublist_optionalField "target_filter"
    (fun (nodes : SortedSet Nat) => .array (nodes.toList.map Json.natural)) d.targetFilter
  have hlabelsName :=
    Json.sublist_optionalField "edge_labels" SortedSet.labelsToJson d.edgeLabels
  have hnames := ((List.Sublist.refl ["source", "paste_target"]).append hfilterName).append
    hlabelsName
  rw [ofJson?, toJson, Json.members?_record (by decide) (by simpa using hnames)]
  simp [List.lookup_cons, List.lookup_append, Json.lookup_optionalField,
    Json.count?_natural h.source, Json.count?_natural h.pasteTarget, htargetFilter, hedgeLabels]

/-! ### Rules -/

/-- Edges, constraints and directives refer to nodes below a bound. -/
structure Rule.RefersBelow (r : Rule) (n : Nat) : Prop where
  /-- The endpoints of edges. -/
  edges : ∀ e ∈ r.edges, e.source < n ∧ e.target < n
  /-- The nodes of constraints. -/
  constraints : ∀ c ∈ r.constraints, ∀ v ∈ c.nodes, v < n
  /-- The sources, paste targets and target filters of directives. -/
  directives : ∀ d ∈ r.directives, d.RefersBelow n

instance (d : Rerouting) (n : Nat) : Decidable (d.RefersBelow n) :=
  decidable_of_iff (d.source < n ∧ d.pasteTarget < n ∧
      ∀ nodes ∈ d.targetFilter, ∀ v ∈ nodes.toList, v < n)
    ⟨fun h => ⟨h.1, h.2.1, h.2.2⟩, fun h => ⟨h.source, h.pasteTarget, h.targetFilter⟩⟩

instance (r : Rule) (n : Nat) : Decidable (r.RefersBelow n) :=
  decidable_of_iff ((∀ e ∈ r.edges, e.source < n ∧ e.target < n) ∧
      (∀ c ∈ r.constraints, ∀ v ∈ c.nodes, v < n) ∧ ∀ d ∈ r.directives, d.RefersBelow n)
    ⟨fun h => ⟨h.1, h.2.1, h.2.2⟩, fun h => ⟨h.edges, h.constraints, h.directives⟩⟩

/-- **A written rule** is read from its value. -/
theorem WrittenRule.ofJson?_toJson {w : WrittenRule} (h : w.rule.RefersBelow (2 ^ 64))
    (hcounts : ∀ c ∈ w.rule.constraints, c.count < 2 ^ 64) : ofJson? w.toJson = some w := by
  have hid : Json.withDefault? none (Json.nullable? Json.text?) (w.rule.id.map Json.text) =
      some w.rule.id := Json.withDefault?_nullable? nofun fun _ _ => rfl
  have hwildcard : Json.withDefault? none (Json.nullable? Json.text?)
      (w.rule.wildcard.map Json.text) = some w.rule.wildcard :=
    Json.withDefault?_nullable? nofun fun _ _ => rfl
  have hnodes : Json.list? RuleNode.ofJson? (.array (w.rule.nodes.map RuleNode.toJson)) =
      some w.rule.nodes := Json.list?_map fun n _ => n.ofJson?_toJson
  have hedges : Json.list? RuleEdge.ofJson? (.array (w.rule.edges.map RuleEdge.toJson)) =
      some w.rule.edges :=
    Json.list?_map fun e he => RuleEdge.ofJson?_toJson (h.edges e he).1 (h.edges e he).2
  have hconstraints : Json.list? (Constraint.ofJson? 2)
      (.array (w.rule.constraints.map Constraint.toJson)) = some w.rule.constraints :=
    Json.list?_map fun c hc =>
      Constraint.ofJson?_toJson (by decide) (h.constraints c hc) (hcounts c hc)
  have hdirectives : Json.list? Rerouting.ofJson?
      (.array (w.rule.directives.map Rerouting.toJson)) = some w.rule.directives :=
    Json.list?_map fun d hd => Rerouting.ofJson?_toJson (h.directives d hd)
  have hnames := (((List.Sublist.refl ["schema_version"]).append
    (Json.sublist_optionalField "rule_id" Json.text w.rule.id)).append
    (Json.sublist_optionalField "wildcard" Json.text w.rule.wildcard)).append
    (List.Sublist.refl ["nodes", "edges", "constraints", "copy_and_paste"])
  rw [ofJson?, toJson, Json.members?_record (by decide) (by simpa using hnames)]
  simp [List.lookup_cons, List.lookup_append, Json.lookup_optionalField,
    SchemaVersion.ofJson?_toJson, hid, hwildcard, hnodes, hedges, hconstraints, hdirectives]

namespace Rule

variable {r : Rule}

/-- The references that are checked are all that there are. -/
theorem refersBelow_iff {n : Nat} :
    r.RefersBelow n ↔ ∀ reference ∈ r.references, reference.2 < n := by
  have hdirective : ∀ d : Rerouting, d.RefersBelow n ↔ (d.source < n ∧ d.pasteTarget < n) ∧
      ∀ v ∈ (d.targetFilter.map (·.toList)).getD [], v < n := by
    intro d
    have hfilter : (∀ nodes ∈ d.targetFilter, ∀ v ∈ nodes.toList, v < n) ↔
        ∀ v ∈ (d.targetFilter.map (·.toList)).getD [], v < n := by
      cases d.targetFilter <;> simp
    rw [← hfilter]
    exact ⟨fun h => ⟨⟨h.source, h.pasteTarget⟩, h.targetFilter⟩, fun h => ⟨h.1.1, h.1.2, h.2⟩⟩
  simp only [references, List.forall_mem_append, List.forall_mem_flatMap, List.forall_mem_map,
    List.forall_mem_cons, List.not_mem_nil, false_implies, implies_true, and_true, ← hdirective]
  exact ⟨fun h => ⟨⟨h.edges, h.constraints⟩, h.directives⟩, fun h => ⟨h.1.1, h.1.2, h.2⟩⟩

theorem reads_ruleForm : SchemaVersion.ruleForm.reads SchemaVersion.ruleForm = true := by decide

theorem accept_of_refersBelow (h : r.RefersBelow r.nodes.length) :
    (WrittenRule.mk .ruleForm r).accept = .ok r := by
  have hnone : r.references.find? (fun reference => r.nodes.length ≤ reference.2) = none :=
    List.find?_eq_none.mpr fun reference hmem => by
      simpa using refersBelow_iff.mp h reference hmem
  rw [WrittenRule.accept, if_pos reads_ruleForm]
  dsimp only
  rw [hnone]

theorem accept_of_not_refersBelow (h : ¬r.RefersBelow r.nodes.length) : ∃ place v,
    (WrittenRule.mk .ruleForm r).accept = .error (.danglingReference place v r.nodes.length) := by
  rw [WrittenRule.accept, if_pos reads_ruleForm]
  dsimp only
  cases hfind : r.references.find? fun reference => r.nodes.length ≤ reference.2 with
  | none =>
    refine absurd (refersBelow_iff.mpr fun reference hmem => ?_) h
    simpa using List.find?_eq_none.mp hfind reference hmem
  | some reference => exact ⟨_, _, rfl⟩

theorem ofJsonText_toJsonText_eq (hreferences : r.RefersBelow (2 ^ 64))
    (hcounts : ∀ c ∈ r.constraints, c.count < 2 ^ 64) :
    ofJsonText r.toJsonText = (WrittenRule.mk .ruleForm r).accept := by
  have hread : WrittenRule.ofJson? (WrittenRule.mk .ruleForm r).toJson =
      some (WrittenRule.mk .ruleForm r) := WrittenRule.ofJson?_toJson hreferences hcounts
  rw [ofJsonText, toJsonText, Json.readWhole?_pretty, Option.bind_eq_bind, Option.bind_some, hread]

/-- **Rules as texts.** A rule whose numbers have 64 bits is read from its text as it was, if its
edges, constraints and directives refer to its nodes. If they do not, the text is refused. -/
theorem ofJsonText_toJsonText (r : Rule) (hreferences : r.RefersBelow (2 ^ 64))
    (hcounts : ∀ c ∈ r.constraints, c.count < 2 ^ 64) :
    (r.RefersBelow r.nodes.length → ofJsonText r.toJsonText = .ok r) ∧
      (¬r.RefersBelow r.nodes.length →
        ∃ fault, ofJsonText r.toJsonText = .error fault ∧ fault.report.code = "invalid-rule") := by
  rw [ofJsonText_toJsonText_eq hreferences hcounts]
  refine ⟨accept_of_refersBelow, fun hdangling => ?_⟩
  obtain ⟨place, v, hv⟩ := accept_of_not_refersBelow hdangling
  exact ⟨_, hv, rfl⟩

/-- A rule that is not consistent, with texts that are escaped, constraints of all kinds, a filter
without members beside one that is absent, and an empty id. -/
def ornate : Rule where
  id := some ""
  nodes := [⟨.leftOnly, "a\"\\\n\x01", none⟩, ⟨.labelChange, "→", some ""⟩, ⟨.kept, "𝔸", none⟩]
  edges := [⟨2, 0, .rightOnly, "\t"⟩]
  constraints := [.nodeLabel 0 ⟨["x", "y"], by decide⟩ .forbidden, .edgeLabel 0 1 ∅ .allowed,
    .noEdge 1 1, .nodeAdjacency 2 .ge 3 ∅ ⟨["-"], by decide⟩]
  directives := [⟨0, 2, some ∅, none⟩, ⟨1, 1, none, some ∅⟩, ⟨2, 0, some ⟨[0, 2], by decide⟩, none⟩]
  wildcard := none

/-- The rule without its last node, to which an edge, a constraint and directives refer. -/
def ornateCut : Rule := { ornate with nodes := ornate.nodes.take 2 }

/-- The rule is read as it was, and without its last node it is refused. -/
theorem ofJsonText_toJsonText_ornate :
    (ornate.RefersBelow (2 ^ 64) ∧ (∀ c ∈ ornate.constraints, c.count < 2 ^ 64) ∧
      ornate.RefersBelow ornate.nodes.length ∧ ofJsonText ornate.toJsonText = .ok ornate) ∧
    ornateCut.RefersBelow (2 ^ 64) ∧ (∀ c ∈ ornateCut.constraints, c.count < 2 ^ 64) ∧
      ¬ornateCut.RefersBelow ornateCut.nodes.length ∧
      ∃ fault, ofJsonText ornateCut.toJsonText = .error fault ∧
        fault.report.code = "invalid-rule" := by
  have hreferences : ornate.RefersBelow (2 ^ 64) := by decide +kernel
  have hcounts : ∀ c ∈ ornate.constraints, c.count < 2 ^ 64 := by decide +kernel
  have hnodes : ornate.RefersBelow ornate.nodes.length := by decide +kernel
  have hcut : ornateCut.RefersBelow (2 ^ 64) := by decide +kernel
  have hcutCounts : ∀ c ∈ ornateCut.constraints, c.count < 2 ^ 64 := by decide +kernel
  have hdangling : ¬ornateCut.RefersBelow ornateCut.nodes.length := by decide +kernel
  exact ⟨⟨hreferences, hcounts, hnodes,
    (ofJsonText_toJsonText ornate hreferences hcounts).1 hnodes⟩, hcut, hcutCounts, hdangling,
    (ofJsonText_toJsonText ornateCut hcut hcutCounts).2 hdangling⟩

end Rule

end GraphGrammar
