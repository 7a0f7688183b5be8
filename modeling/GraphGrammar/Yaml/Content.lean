import GraphGrammar.Yaml.Document
import GraphGrammar.Yaml.Resolve

/-!
# YAML nodes that are set aside

What stands beside the tag of a variant is set aside until the variant is known, and is then read by
what it means. All aliases in it are followed. It must not nest too deep, no scalar in it may be too
wide or contradict its tag, and no node in it may have the name of a variant as its tag.

A structure is then a mapping with its fields under their names or numbers, or a sequence of its
fields in the order of their declaration.

## Main definitions

* `GraphGrammar.Yaml.Content` and `GraphGrammar.Yaml.Node.setAside`.
* `GraphGrammar.Yaml.Content.text?`, `GraphGrammar.Yaml.Content.members?`.
-/

namespace GraphGrammar.Yaml

/-- A node that was set aside. -/
inductive Content where
  /-- A scalar. -/
  | scalar (meaning : Meaning)
  /-- A list of nodes. -/
  | sequence (items : List Content)
  /-- Pairs of a key and a value, in their order. -/
  | mapping (fields : List (Content × Content))

/-- Whether a collection may be read by what it means: its tag does not name a variant. -/
def Properties.isOpen (p : Properties) : Bool := !p.tag.any Tag.namesVariant

/-- Sets a node aside that nests at most `levels` deep. -/
def Node.setAside (levels : Nat) (node : Node) : Reading Content := do
  match ← node.follow, levels with
  | scalar p style text, _ =>
    match scalarMeaning p.tag style text with
    | .wide | .contradiction => failure
    | meaning => return .scalar meaning
  | sequence p items, levels + 1 =>
    if p.isOpen then return .sequence (← items.mapM (setAside levels)) else failure
  | mapping p fields, levels + 1 =>
    if p.isOpen then
      return .mapping (← fields.mapM fun field => do
        return (← setAside levels field.1, ← setAside levels field.2))
    else failure
  | _, _ => failure

/-- The fields of a mapping under some names, in the order of the names. -/
def namedFields? {κ ν : Type} [BEq κ] (names : List κ) (fields : List (κ × ν)) :
    Option (List (Option ν)) :=
  names.mapM fun name =>
    match fields.filter fun field => field.1 == name with
    | [] => some none
    | [field] => some (some field.2)
    | _ => none

namespace Content

/-- The text that a node is. -/
def text? : Content → Option String
  | scalar (.text s) => some s
  | _ => none

/-- The fields of a structure, in the order of their names. -/
def members? (names : List String) : Content → Option (List (Option Content))
  | scalar _ => none
  | sequence items =>
    if items.length ≤ names.length then
      some (items.map some ++ List.replicate (names.length - items.length) none)
    else none
  | mapping fields => do
    let named ← fields.mapM fun field =>
      match field.1 with
      | scalar (.text name) => some (some name, field.2)
      | scalar (.natural n) => some (names[n]?, field.2)
      | _ => none
    namedFields? (names.map some) named

end Content

end GraphGrammar.Yaml
