import GraphGrammar.Yaml.Node

/-!
# YAML documents

A text holds at most one document. Its head may give the version of the language and what handles
stand for.

An alias is followed when the document is read, and not before: it stands for the node with its
number that starts last, whether that comes before or behind it, and it may stand inside of that
node. Aliases that nobody reads are never followed. While a document is read, aliases may be
followed a hundred times for each of its scalars, its aliases, and the starts and ends of its
collections.

## Main definitions

* `GraphGrammar.Yaml.Document` and `GraphGrammar.Yaml.document?`.
* `GraphGrammar.Yaml.Reading` — a value that is read from a document.
* `GraphGrammar.Yaml.Node.follow` — the node that a node stands for.
* `GraphGrammar.Yaml.Document.read?` — the value that a document is.
-/

namespace GraphGrammar.Yaml

/-- A document. -/
structure Document where
  /-- The node that holds all others. -/
  root : Node

namespace Node

mutual

/-- The nodes in a node, itself included, in front of others. Those that start later come first. -/
def nodesOnto (others : List Node) : Node → List Node
  | scalar p style text => scalar p style text :: others
  | reference anchor => reference anchor :: others
  | sequence p items => itemNodesOnto (sequence p items :: others) items
  | mapping p fields => fieldNodesOnto (mapping p fields :: others) fields

/-- The nodes in the items of a sequence, in front of others. -/
def itemNodesOnto (others : List Node) : List Node → List Node
  | [] => others
  | item :: items => itemNodesOnto (nodesOnto others item) items

/-- The nodes in the fields of a mapping, in front of others. -/
def fieldNodesOnto (others : List Node) : List (Node × Node) → List Node
  | [] => others
  | (key, value) :: fields => fieldNodesOnto (nodesOnto (nodesOnto others key) value) fields

end

/-- The number of the anchor of a node. -/
def anchor? : Node → Option Nat
  | scalar p _ _ | sequence p _ | mapping p _ => p.anchor
  | reference _ => none

/-- The number of places at which a node starts or ends: one for a scalar or an alias, and two for a
collection. -/
def places : Node → Nat
  | scalar .. | reference _ => 1
  | sequence .. | mapping .. => 2

end Node

namespace Document

/-- The nodes of a document. Those that start later come first. -/
def nodes (d : Document) : List Node := d.root.nodesOnto []

/-- The nodes with anchors, each with its number. Those that start later come first. -/
def anchored (d : Document) : List (Nat × Node) :=
  d.nodes.filterMap fun node => node.anchor?.map fun number => (number, node)

/-- The number of times that aliases may be followed. -/
def followLimit (d : Document) : Nat :=
  d.nodes.foldl (fun limit node => limit + 100 * node.places) 0

end Document

/-! ### Reading documents -/

/-- A value that is read from a document. What is known are the nodes with anchors; what is kept is
the number of times that aliases may still be followed. -/
abbrev Reading := ReaderT (List (Nat × Node)) (StateT Nat Option)

/-- The node that a node stands for. An alias never stands for another one. -/
def Node.follow : Node → Reading Node
  | reference anchor => do
    let left ← get
    if left = 0 then failure
    else
      set (left - 1)
      ((← read).lookup anchor : Option Node)
  | node => return node

/-- The value that a document is, given how it is read from a node. -/
def Document.read? {α : Type} (reader : Node → Reading α) (d : Document) : Option α :=
  ((reader d.root).run d.anchored).run' d.followLimit

/-! ### Documents of texts -/

namespace Document

/-- Passes the directives at the start of a text: a version that is known, and what handles stand
for, each given once. Given is what was passed. -/
def passDirectives? (hasVersion : Bool) (shorthands : List (List Char × Tag)) :
    List Token → Option (List (List Char × Tag) × List Token)
  | .version major minor :: rest =>
    if !hasVersion && major = 1 && (minor = 1 || minor = 2) then
      passDirectives? true shorthands rest
    else none
  | .shorthand handle tag :: rest =>
    if (shorthands.lookup handle).isNone then
      passDirectives? hasVersion ((handle, tag) :: shorthands) rest
    else none
  | rest => some (shorthands, rest)

/-- The document of a list of tokens. Without any, its node is left out. Behind directives it must
be announced. -/
def ofTokens? (tokens : List Token) : Option Document := do
  let (shorthands, body) ← passDirectives? false [] tokens
  let fuel := 4 * body.length + 4
  let source (tokens : List Token) : Node.Source :=
    ⟨tokens, shorthands ++ standardShorthands, [], 0⟩
  let (root, rest) ←
    match body with
    | .documentStart :: body =>
      if (source body).isAt [.documentStart, .documentEnd] then some (Node.absent, body)
      else do
        let (root, s) ← Node.read? true false fuel (source body)
        some (root, s.tokens)
    | body =>
      if body.length < tokens.length then none
      else if body.isEmpty then some (Node.absent, [])
      else do
        let (root, s) ← Node.read? true false fuel (source body)
        some (root, s.tokens)
  if rest.all (· == .documentEnd) then some ⟨root⟩ else none

end Document

/-- The document of a text. -/
def document? (text : String) : Option Document := do Document.ofTokens? (← tokens? text)

end GraphGrammar.Yaml
