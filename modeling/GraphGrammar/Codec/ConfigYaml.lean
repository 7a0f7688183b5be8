import GraphGrammar.Codec.ConfigJson
import GraphGrammar.Yaml.Decode
import GraphGrammar.Yaml.Writer

/-!
# Configurations as YAML texts

The fields have the names that they have in JSON texts. A configuration is written with all its
fields, by indentation.

## Main definitions

* `GraphGrammar.GrammarConfig.ofYamlText` and `GraphGrammar.GrammarConfig.toYamlText`.
-/

namespace GraphGrammar

/-! ### Reading -/

/-- The mode with a name, given what stands beside the name. Without fields of its own, a mode does
not look at the fields of a mapping. -/
def Relabeling.ofContent? (mode : String) (fields : Yaml.Content) : Option Relabeling := do
  if mode == "replace" then
    match fields with
    | .sequence (_ :: _) => none
    | _ => some replace
  else if mode == "preserve_suffix" then do
    let [some separator] ← fields.members? ["separator"] | none
    some (preserveSuffix (← separator.text?))
  else none

/-- The mode that a node is. -/
def Relabeling.ofYaml (node : Yaml.Node) : Yaml.Reading Relabeling := do
  let (mode, fields) ← node.tagged "mode" 125
  ofContent? mode fields

/-- The settings of a search that a node is. -/
def SearchConfig.ofYaml (node : Yaml.Node) : Yaml.Reading SearchConfig := do
  let [maxHits, symmetryBreaking, maxAutomorphisms] ←
    node.members ["max_hits", "symmetry_breaking", "max_automorphisms"] | failure
  return ⟨← Yaml.Node.withDefault default.maxHits Yaml.Node.count maxHits,
    ← Yaml.Node.withDefault default.symmetryBreaking Yaml.Node.bool symmetryBreaking,
    ← Yaml.Node.withDefault default.maxAutomorphisms Yaml.Node.count maxAutomorphisms⟩

/-- The settings of the application of a rule that a node is. -/
def RewriteConfig.ofYaml (node : Yaml.Node) : Yaml.Reading RewriteConfig := do
  let [addEachComponent, relabeling] ←
    node.members ["add_each_component", "label_rewrite"] | failure
  return ⟨← Yaml.Node.withDefault default.addEachComponent Yaml.Node.bool addEachComponent,
    ← Yaml.Node.withDefault default.relabeling Relabeling.ofYaml relabeling⟩

namespace GrammarConfig

/-- The settings that a node is. -/
def ofYaml (node : Yaml.Node) : Yaml.Reading GrammarConfig := do
  let [search, rewrite] ← node.members ["matching", "application"] | failure
  return ⟨← Yaml.Node.withDefault default.search SearchConfig.ofYaml search,
    ← Yaml.Node.withDefault default.rewrite RewriteConfig.ofYaml rewrite⟩

/-- The valid settings that a text is. A text without document leaves everything at its default. -/
def ofYamlText (text : String) : Except Fault GrammarConfig :=
  match (do (← Yaml.document? text).read? ofYaml) with
  | none => .error (.unreadable .yamlConfig)
  | some c => c.check

/-! ### Writing -/

/-- The lines for the way in which labels are written. -/
def relabelingLines : Relabeling → List String
  | .replace => ["    mode: replace\n"]
  | .preserveSuffix separator =>
    ["    mode: preserve_suffix\n", "    separator: " ++ Yaml.textLine 6 separator]

/-- The settings as text. -/
def toYamlText (c : GrammarConfig) : String :=
  String.join ([
    "matching:\n",
    "  max_hits: " ++ toString c.search.maxHits ++ "\n",
    "  symmetry_breaking: " ++ toString c.search.symmetryBreaking ++ "\n",
    "  max_automorphisms: " ++ toString c.search.maxAutomorphisms ++ "\n",
    "application:\n",
    "  add_each_component: " ++ toString c.rewrite.addEachComponent ++ "\n",
    "  label_rewrite:\n"] ++ relabelingLines c.rewrite.relabeling)

end GrammarConfig

end GraphGrammar
