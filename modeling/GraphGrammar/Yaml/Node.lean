import GraphGrammar.Yaml.Token

/-!
# Nodes of YAML texts

A document is a tree of scalars, sequences, mappings and aliases. A node that is left out is an
empty plain scalar. An alias stands for a node with an anchor.

Anchors are numbered: the number of an anchor says how many names were in use before it. A name that
is used again does not count twice, so that a later anchor may get a number that is taken.

## Main definitions

* `GraphGrammar.Yaml.Node`.
* `GraphGrammar.Yaml.Node.read?` — the node at the front of some tokens.
-/

namespace GraphGrammar.Yaml

/-- What stands in front of a node. -/
structure Properties where
  /-- The number of its anchor, if it has one. -/
  anchor : Option Nat
  /-- Its tag, if one is given. -/
  tag : Option Tag

namespace Properties

/-- Nothing in front of a node. -/
def none : Properties := ⟨.none, .none⟩

/-- Whether nothing stands in front of a node. -/
def isNone (p : Properties) : Bool := p.anchor.isNone && p.tag.isNone

/-- What counts in front of a scalar: a mark alone is no tag of it. -/
def ofScalar (p : Properties) : Properties := { p with tag := p.tag.filter (· ≠ .mark) }

end Properties

/-- A node. -/
inductive Node where
  /-- A text. -/
  | scalar (properties : Properties) (style : Style) (text : String)
  /-- A list of nodes. -/
  | sequence (properties : Properties) (items : List Node)
  /-- Pairs of a key and a value, in their order. Keys may be repeated. -/
  | mapping (properties : Properties) (fields : List (Node × Node))
  /-- An alias for the node whose anchor has a number. -/
  | reference (anchor : Nat)

namespace Node

/-- The node that is left out, behind what stands in front of it. -/
def empty (p : Properties) : Node := scalar p .plain ""

/-- The node that is left out altogether. -/
def absent : Node := empty .none

/-! ### Properties -/

/-- What is left to read, and what is known about names. -/
structure Source where
  /-- The tokens. -/
  tokens : List Token
  /-- What handles stand for. -/
  shorthands : List (List Char × Tag)
  /-- The names in use, each with the numbers of its anchors, the latest first. -/
  anchors : List (List Char × Nat)
  /-- The number of different names in use. -/
  nameCount : Nat

namespace Source

/-- Passes the next token. -/
def next (s : Source) : Source := { s with tokens := s.tokens.tail }

/-- Whether the next token is one of some, or there is none. -/
def isAt (s : Source) (tokens : List Token) : Bool := s.tokens.head?.all tokens.contains

/-- Takes note of an anchor. The result has its number. -/
def declare (s : Source) (name : List Char) : Nat × Source :=
  let isNew := (s.anchors.lookup name).isNone
  (s.nameCount, { s with
    anchors := (name, s.nameCount) :: s.anchors
    nameCount := if isNew then s.nameCount + 1 else s.nameCount })

/-- The tag behind a handle, if the handle stands for something. -/
def tag? (s : Source) (handle : Option (List Char)) (tag : Tag) : Option Tag :=
  match handle with
  | none => some tag
  | some handle => (s.shorthands.lookup handle).map (·.append tag)

end Source

/-- The anchor and the tag in front of a node, in either order. -/
def readProperties? (s : Source) : Option (Properties × Source) := do
  let (name, type, rest) := match s.tokens with
    | .anchor name :: .tag handle tag :: rest => (some name, some (handle, tag), rest)
    | .tag handle tag :: .anchor name :: rest => (some name, some (handle, tag), rest)
    | .anchor name :: rest => (some name, none, rest)
    | .tag handle tag :: rest => (none, some (handle, tag), rest)
    | rest => (none, none, rest)
  let tag ← match type with
    | some (handle, tag) => (s.tag? handle tag).map some
    | none => some none
  let s := { s with tokens := rest }
  match name with
  | some name =>
    let (number, s) := s.declare name
    some (⟨some number, tag⟩, s)
  | none => some (⟨none, tag⟩, s)

/-! ### Nodes -/

mutual

/-- A node. Collections by indentation are allowed if `inBlock`, and a sequence that is not further
indented than the mapping around it if `inMapping`. -/
def read? (inBlock inMapping : Bool) (fuel : Nat) (s : Source) : Option (Node × Source) :=
  match fuel with
  | 0 => none
  | fuel + 1 =>
    match s.tokens with
    | .alias name :: _ => do some (reference (← s.anchors.lookup name), s.next)
    | _ => do
      let (p, s) ← readProperties? s
      let leftOut := if p.isNone then none else some (empty p, s)
      match s.tokens with
      | .scalar style text :: _ => some (scalar p.ofScalar style (String.ofList text), s.next)
      | .openBracket :: _ => do
        let (items, s) ← readFlowItems? true fuel s.next
        some (sequence p items, s)
      | .openBrace :: _ => do
        let (fields, s) ← readFlowFields? true fuel s.next
        some (mapping p fields, s)
      | .item :: _ =>
        if inMapping then do
          let (items, s) ← readIndentlessItems? fuel s
          some (sequence p items, s)
        else leftOut
      | .blockSequence :: _ =>
        if inBlock then do
          let (items, s) ← readBlockItems? fuel s.next
          some (sequence p items, s)
        else leftOut
      | .blockMapping :: _ =>
        if inBlock then do
          let (fields, s) ← readBlockFields? fuel s.next
          some (mapping p fields, s)
        else leftOut
      | _ => leftOut

/-- The items of a sequence by indentation, and its end. -/
def readBlockItems? (fuel : Nat) (s : Source) : Option (List Node × Source) :=
  match fuel with
  | 0 => none
  | fuel + 1 =>
    match s.tokens with
    | .blockEnd :: _ => some ([], s.next)
    | .item :: _ => do
      let s := s.next
      let (node, s) ←
        if s.isAt [.item, .blockEnd] then some (absent, s) else read? true false fuel s
      let (items, s) ← readBlockItems? fuel s
      some (node :: items, s)
    | _ => none

/-- The items of a sequence that is not further indented than the mapping around it. -/
def readIndentlessItems? (fuel : Nat) (s : Source) : Option (List Node × Source) :=
  match fuel with
  | 0 => none
  | fuel + 1 =>
    match s.tokens with
    | .item :: _ => do
      let s := s.next
      let (node, s) ←
        if s.isAt [.item, .key, .value, .blockEnd] then some (absent, s)
        else read? true false fuel s
      let (items, s) ← readIndentlessItems? fuel s
      some (node :: items, s)
    | _ => some ([], s)

/-- The fields of a mapping by indentation, and its end. -/
def readBlockFields? (fuel : Nat) (s : Source) : Option (List (Node × Node) × Source) :=
  match fuel with
  | 0 => none
  | fuel + 1 =>
    match s.tokens with
    | .blockEnd :: _ => some ([], s.next)
    | .key :: _ => do
      let s := s.next
      let (key, s) ←
        if s.isAt [.key, .value, .blockEnd] then some (absent, s) else read? true true fuel s
      let (value, s) ←
        match s.tokens with
        | .value :: _ =>
          let s := s.next
          if s.isAt [.key, .value, .blockEnd] then some (absent, s) else read? true true fuel s
        | _ => some (absent, s)
      let (fields, s) ← readBlockFields? fuel s
      some ((key, value) :: fields, s)
    | _ => none

/-- The items of a sequence in brackets, and its end. A pair may be an item by itself. When the key
of such a pair is left out behind its question mark, the token that follows belongs to it. -/
def readFlowItems? (isFirst : Bool) (fuel : Nat) (s : Source) : Option (List Node × Source) :=
  match fuel with
  | 0 => none
  | fuel + 1 =>
    match s.tokens with
    | .closeBracket :: _ => some ([], s.next)
    | t :: _ =>
      if !isFirst && t ≠ .comma then none
      else
        let s := if isFirst then s else s.next
        match s.tokens with
        | .closeBracket :: _ => some ([], s.next)
        | .key :: _ => do
          let s := s.next
          let (key, s) ←
            if s.isAt [.value, .comma, .closeBracket] then some (absent, s.next)
            else read? false false fuel s
          let (value, s) ← readFlowValue? .closeBracket fuel s
          let (items, s) ← readFlowItems? false fuel s
          some (mapping .none [(key, value)] :: items, s)
        | _ => do
          let (node, s) ← read? false false fuel s
          let (items, s) ← readFlowItems? false fuel s
          some (node :: items, s)
    | [] => none

/-- The fields of a mapping in braces, and its end. -/
def readFlowFields? (isFirst : Bool) (fuel : Nat) (s : Source) :
    Option (List (Node × Node) × Source) :=
  match fuel with
  | 0 => none
  | fuel + 1 =>
    match s.tokens with
    | .closeBrace :: _ => some ([], s.next)
    | t :: _ =>
      if !isFirst && t ≠ .comma then none
      else
        let s := if isFirst then s else s.next
        match s.tokens with
        | .closeBrace :: _ => some ([], s.next)
        | .key :: _ => do
          let s := s.next
          let (key, s) ←
            if s.isAt [.value, .comma, .closeBrace] then some (absent, s)
            else read? false false fuel s
          let (value, s) ← readFlowValue? .closeBrace fuel s
          let (fields, s) ← readFlowFields? false fuel s
          some ((key, value) :: fields, s)
        | _ => do
          let (key, s) ← read? false false fuel s
          let (fields, s) ← readFlowFields? false fuel s
          some ((key, absent) :: fields, s)
    | [] => none

/-- The value behind a key in brackets or braces. -/
def readFlowValue? (close : Token) (fuel : Nat) (s : Source) : Option (Node × Source) :=
  match fuel with
  | 0 => none
  | fuel + 1 =>
    match s.tokens with
    | .value :: _ =>
      let s := s.next
      if s.isAt [.comma, close] then some (absent, s) else read? false false fuel s
    | _ => some (absent, s)

end

end Node

end GraphGrammar.Yaml
