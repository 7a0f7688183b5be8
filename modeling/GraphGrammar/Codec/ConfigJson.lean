import GraphGrammar.Json.Decode
import GraphGrammar.Json.Writer
import GraphGrammar.Rewrite.Config

/-!
# Configurations as JSON texts

All fields of a configuration have defaults. The way in which labels are written is a variant,
tagged with its mode. A configuration that was read is checked.

## Main definitions

* `GraphGrammar.Relabeling.toJson`, `GraphGrammar.Relabeling.ofJson?`, and the same for
  configurations.
* `GraphGrammar.GrammarConfig.ofJsonText`.
-/

namespace GraphGrammar

namespace Relabeling

/-- The mode as a value. -/
def toJson : Relabeling → Json
  | replace => .record [("mode", .text "replace")]
  | preserveSuffix separator =>
    .record [("mode", .text "preserve_suffix"), ("separator", .text separator)]

/-- The mode that a value inside of `level` levels is. Without fields of its own, a mode does not
look at what stands beside its name in an object. -/
def ofJson? (level : Nat) (value : Json) : Option Relabeling := do
  let (mode, fields) ← value.tagged? "mode" level
  if mode == "replace" then
    match fields with
    | .array (_ :: _) => none
    | _ => some replace
  else if mode == "preserve_suffix" then do
    let [separator] ← fields.members? ["separator"] | none
    some (preserveSuffix (← Json.required? Json.text? separator))
  else none

/-- The mode that a text is. -/
def ofJsonText? (text : String) : Option Relabeling := do ofJson? 0 (← Json.readWhole? text)

end Relabeling

namespace SearchConfig

/-- The settings as a value. -/
def toJson (c : SearchConfig) : Json :=
  .record [("max_hits", .natural c.maxHits), ("symmetry_breaking", .bool c.symmetryBreaking),
    ("max_automorphisms", .natural c.maxAutomorphisms)]

/-- The settings that a value is. -/
def ofJson? (value : Json) : Option SearchConfig := do
  let [maxHits, symmetryBreaking, maxAutomorphisms] ←
    value.members? ["max_hits", "symmetry_breaking", "max_automorphisms"] | none
  some ⟨← Json.withDefault? default.maxHits Json.count? maxHits,
    ← Json.withDefault? default.symmetryBreaking Json.bool? symmetryBreaking,
    ← Json.withDefault? default.maxAutomorphisms Json.count? maxAutomorphisms⟩

end SearchConfig

namespace RewriteConfig

/-- The settings as a value. -/
def toJson (c : RewriteConfig) : Json :=
  .record [("add_each_component", .bool c.addEachComponent), ("label_rewrite", c.relabeling.toJson)]

/-- The settings that a value inside of `level` levels is. -/
def ofJson? (level : Nat) (value : Json) : Option RewriteConfig := do
  let [addEachComponent, relabeling] ← value.members? ["add_each_component", "label_rewrite"] | none
  some ⟨← Json.withDefault? default.addEachComponent Json.bool? addEachComponent,
    ← Json.withDefault? default.relabeling (Relabeling.ofJson? (level + 1)) relabeling⟩

end RewriteConfig

namespace GrammarConfig

/-- The settings as a value. -/
def toJson (c : GrammarConfig) : Json :=
  .record [("matching", c.search.toJson), ("application", c.rewrite.toJson)]

/-- The settings that a value is. -/
def ofJson? (value : Json) : Option GrammarConfig := do
  let [search, rewrite] ← value.members? ["matching", "application"] | none
  some ⟨← Json.withDefault? default.search SearchConfig.ofJson? search,
    ← Json.withDefault? default.rewrite (RewriteConfig.ofJson? 1) rewrite⟩

/-- The settings, if they are valid. -/
def check (c : GrammarConfig) : Except Fault GrammarConfig := do
  c.validate
  return c

/-- The valid settings that a text is. -/
def ofJsonText (text : String) : Except Fault GrammarConfig :=
  match (do ofJson? (← Json.readWhole? text)) with
  | none => .error (.unreadable .jsonConfig)
  | some c => c.check

end GrammarConfig

end GraphGrammar
