import GraphGrammar.Yaml.Content

/-!
# From YAML nodes to structures

A structure is written as a mapping with its fields under their names, or left out altogether when
all its fields have defaults. Fields with other names are skipped, and a field must not be repeated.

A variant with fields is written in the same way, with its name as one more field, the tag, or as a
sequence with its name in front. What stands beside a tag is set aside.

## Main definitions

* `GraphGrammar.Yaml.Node.text`, `GraphGrammar.Yaml.Node.count`, `GraphGrammar.Yaml.Node.bool`.
* `GraphGrammar.Yaml.Node.members` — the fields of a structure.
* `GraphGrammar.Yaml.Node.tagged` — the tag of a variant and what stands beside it.
-/

namespace GraphGrammar.Yaml.Node

/-! ### Plain values -/

/-- The text that a scalar is, whatever it means. -/
def text (node : Node) : Reading String := do
  match ← node.follow with
  | scalar _ _ text => return text
  | _ => failure

/-- The text of a scalar that is read as a value of the standard type with the given name: it is
plain, or a block with the tag of that type. -/
def textAs (type : String) (node : Node) : Reading String := do
  match ← node.follow with
  | scalar p style text =>
    if style = .plain || (style = .literal && p.tag = some (.standard type)) then return text
    else failure
  | _ => failure

/-- The natural number of 64 bits that a scalar is. -/
def count (node : Node) : Reading Nat := do
  (natural? (← node.textAs "int")).filter (· < 1 <<< 64)

/-- The truth value that a scalar is. -/
def bool (node : Node) : Reading Bool := do truth? (← node.textAs "bool")

/-! ### Structures -/

/-- A field with a default. -/
def withDefault {α : Type} (default : α) (reader : Node → Reading α) : Option Node → Reading α
  | none => return default
  | some node => reader node

/-- The fields of a structure, in the order of their names. -/
def members (names : List String) (node : Node) : Reading (List (Option Node)) := do
  match ← node.follow with
  | scalar _ style text =>
    if style = .plain && text.isEmpty then return List.replicate names.length none else failure
  | mapping _ fields =>
    namedFields? names (← fields.mapM fun field => do return (← field.1.text, field.2))
  | _ => failure

/-! ### Variants -/

/-- The tag of a variant and what stands beside it, for a node that may have `levels` levels in
it. -/
def tagged (tag : String) (levels : Nat) (node : Node) : Reading (String × Content) := do
  match ← node.follow with
  | mapping p fields =>
    if !p.isOpen then failure
    let fields ← fields.mapM fun field => do return (← field.1.setAside levels, field.2)
    let (tags, beside) := fields.partition fun field => field.1.text? == some tag
    match tags with
    | [(_, name)] =>
      return (← name.text, .mapping (← beside.mapM fun field => do
        return (field.1, ← field.2.setAside levels)))
    | _ => failure
  | sequence p (name :: beside) =>
    if !p.isOpen then failure
    return (← name.text, .sequence (← beside.mapM (setAside levels)))
  | _ => failure

end GraphGrammar.Yaml.Node
