import GraphGrammar.Yaml.Scalar
import GraphGrammar.Yaml.Tag

/-!
# Tokens of YAML texts

Indentation is made explicit: where a collection starts or ends by its column, there is a token for
it. That a scalar is a key is only known when its colon comes. Every place where a key may start is
therefore remembered until then; the tokens in front of the key are inserted afterwards. Such a key
must end on its line.

## Main definitions

* `GraphGrammar.Yaml.Token`.
* `GraphGrammar.Yaml.Scanner` — what is known at a place.
* `GraphGrammar.Yaml.tokens?` — the tokens of a text.
-/

namespace GraphGrammar.Yaml

/-- How a scalar is written. -/
inductive Style where
  /-- As it is. -/
  | plain
  /-- In quotes. -/
  | quoted
  /-- As a block that keeps its lines. -/
  | literal
  /-- As a block that folds its lines. -/
  | folded
deriving DecidableEq

/-- A token. -/
inductive Token where
  /-- The version of the language. -/
  | version (major minor : Nat)
  /-- What a handle stands for. -/
  | shorthand (handle : List Char) (tag : Tag)
  /-- The start of a document. -/
  | documentStart
  /-- The end of a document. -/
  | documentEnd
  /-- The start of a sequence by indentation. -/
  | blockSequence
  /-- The start of a mapping by indentation. -/
  | blockMapping
  /-- The end of a collection by indentation. -/
  | blockEnd
  /-- An opening bracket. -/
  | openBracket
  /-- A closing bracket. -/
  | closeBracket
  /-- An opening brace. -/
  | openBrace
  /-- A closing brace. -/
  | closeBrace
  /-- The dash in front of an item. -/
  | item
  /-- A comma. -/
  | comma
  /-- The place in front of a key. -/
  | key
  /-- The colon in front of a value. -/
  | value
  /-- A reference to an anchor. -/
  | alias (name : List Char)
  /-- The name of a node. -/
  | anchor (name : List Char)
  /-- The type of a node, behind a handle if there is one. -/
  | tag (handle : Option (List Char)) (tag : Tag)
  /-- A scalar. -/
  | scalar (style : Style) (text : List Char)
deriving DecidableEq

/-- A place where a key may start. -/
structure KeyStart where
  /-- The number of tokens in front of it. -/
  place : Nat
  /-- Whether the indentation requires a key here. -/
  isRequired : Bool
  /-- Where it is. -/
  start : Cursor

/-- What is known at a place in a text. -/
structure Scanner where
  /-- The place. -/
  cursor : Cursor
  /-- The tokens so far, the last one first. -/
  tokens : List Token
  /-- Their number. -/
  count : Nat
  /-- The number of open brackets and braces. -/
  flowLevel : Nat
  /-- The column of the innermost collection by indentation; -1 outside of all. -/
  indent : Int
  /-- The columns of the collections around it. -/
  outerIndents : List Int
  /-- Whether a key may start here. -/
  keyAllowed : Bool
  /-- Where a key may have started, inside of the innermost bracket first. -/
  keyStarts : List (Option KeyStart)

namespace Scanner

/-- The start of a text. -/
def start (text : List Char) : Scanner := ⟨Cursor.start text, [], 0, 0, -1, [], true, [none]⟩

/-- Whether the place is outside of all brackets. -/
def inBlock (s : Scanner) : Bool := s.flowLevel == 0

/-- Adds a token. -/
def push (s : Scanner) (t : Token) : Scanner :=
  { s with tokens := t :: s.tokens, count := s.count + 1 }

/-- Adds a token behind the first `place` tokens. -/
def insert (s : Scanner) (place : Nat) (t : Token) : Scanner :=
  let behind := s.count - place
  { s with tokens := s.tokens.take behind ++ t :: s.tokens.drop behind, count := s.count + 1 }

/-- Moves to another place. -/
def moveTo (s : Scanner) (c : Cursor) : Scanner := { s with cursor := c }

/-- Sets whether a key may start next. -/
def allowKey (s : Scanner) (allowed : Bool) : Scanner := { s with keyAllowed := allowed }

/-! ### Indentation -/

/-- Opens a collection at a column, if it is further indented than the one around it. Its token
stands behind the first `place` tokens. -/
def openBlock (s : Scanner) (column place : Nat) (t : Token) : Scanner :=
  if s.inBlock && s.indent < column then
    { s.insert place t with indent := column, outerIndents := s.indent :: s.outerIndents }
  else s

/-- Closes the collections that are further indented than a column; given are the columns of the
innermost and of those around it. -/
def closeBlocks (column indent : Int) (outer : List Int) (s : Scanner) : Scanner :=
  match outer with
  | [] => { s with indent := indent, outerIndents := [] }
  | o :: outer =>
    if column < indent then closeBlocks column o outer (s.push .blockEnd)
    else { s with indent := indent, outerIndents := o :: outer }

/-- Closes the collections that are further indented than a column. -/
def unindent (s : Scanner) (column : Int) : Scanner :=
  if s.inBlock then closeBlocks column s.indent s.outerIndents s else s

/-! ### Keys -/

/-- Gives up the innermost place where a key may have started, unless a key is required there. -/
def dropKey? (s : Scanner) : Option Scanner :=
  match s.keyStarts with
  | some k :: starts =>
    if k.isRequired then none else some { s with keyStarts := none :: starts }
  | _ => some s

/-- Remembers the place as one where a key may start. -/
def markKey? (s : Scanner) : Option Scanner :=
  if s.keyAllowed then do
    let s ← s.dropKey?
    let k : KeyStart := ⟨s.count, s.inBlock && s.indent == s.cursor.column, s.cursor⟩
    some { s with keyStarts := some k :: s.keyStarts.tail }
  else some s

/-- Whether a key that started at a place may still end here. -/
def mayEnd (s : Scanner) (k : KeyStart) : Bool :=
  k.start.line == s.cursor.line && s.cursor.offset ≤ k.start.offset + 1024

/-- The innermost place where a key may have started, if the key may end here. -/
def openKey? (s : Scanner) : Option KeyStart := s.keyStarts.head?.join.filter s.mayEnd

/-! ### Tokens of one kind -/

/-- Adds a token of `n` characters in front of which no key may be open. -/
def indicator? (s : Scanner) (n : Nat) (keyAllowed : Bool) (t : Token) : Option Scanner := do
  let s ← s.dropKey?
  some (((s.moveTo (s.cursor.skip n)).allowKey keyAllowed).push t)

/-- The marker between documents. -/
def documentMarker? (s : Scanner) (t : Token) : Option Scanner :=
  (s.unindent (-1)).indicator? 3 false t

/-- A decimal number of at most nine digits. -/
def versionPart? (c : Cursor) : Option (Nat × Cursor) :=
  let (digits, c) := c.span (·.isDigit)
  if digits.isEmpty || 9 < digits.length then none
  else some (digits.foldl (fun n d => 10 * n + (d.toNat - 48)) 0, c)

/-- The version of the language at a place. -/
def version? (c : Cursor) : Option (Token × Cursor) := do
  let (major, c) ← versionPart? c
  if c.rest.head? ≠ some '.' then none
  let (minor, c) ← versionPart? c.next
  some (.version major minor, c)

/-- What a handle stands for at a place. -/
def shorthand? (c : Cursor) : Option (Token × Cursor) := do
  let (handle, tag, c) ← readShorthand? c
  some (.shorthand handle tag, c)

/-- A directive: the version of the language, or what a handle stands for. -/
def directive? (s : Scanner) : Option Scanner := do
  let s ← (s.unindent (-1)).dropKey?
  let (name, c) := s.cursor.next.span isNameCharacter
  if !endsWord c.rest then none
  let c := (c.span isBlank).2
  let (token, c) ←
    if name = ['Y', 'A', 'M', 'L'] then version? c
    else if name = ['T', 'A', 'G'] then shorthand? c
    else none
  some (((s.moveTo (← finishLine? c)).allowKey false).push token)

/-- An opening bracket or brace. -/
def openFlow? (s : Scanner) (t : Token) : Option Scanner := do
  let s ← s.markKey?
  some (({ s with
    cursor := s.cursor.next
    flowLevel := s.flowLevel + 1
    keyStarts := none :: s.keyStarts }.allowKey true).push t)

/-- A closing bracket or brace. -/
def closeFlow? (s : Scanner) (t : Token) : Option Scanner := do
  let s ← s.dropKey?
  let starts := if s.inBlock then s.keyStarts else s.keyStarts.tail
  some (({ s with
    cursor := s.cursor.next
    flowLevel := s.flowLevel - 1
    keyStarts := starts }.allowKey false).push t)

/-- The dash in front of an item. -/
def dash? (s : Scanner) : Option Scanner :=
  if s.inBlock && !s.keyAllowed then none
  else (s.openBlock s.cursor.column s.count .blockSequence).indicator? 1 true .item

/-- The question mark in front of a key. -/
def question? (s : Scanner) : Option Scanner :=
  if s.inBlock && !s.keyAllowed then none
  else (s.openBlock s.cursor.column s.count .blockMapping).indicator? 1 s.inBlock .key

/-- The colon in front of a value. -/
def colon? (s : Scanner) : Option Scanner :=
  match s.openKey? with
  | some k =>
    let s := { s.insert k.place .key with keyStarts := none :: s.keyStarts.tail }
    let s := s.openBlock k.start.column k.place .blockMapping
    some (((s.moveTo s.cursor.next).allowKey false).push .value)
  | none => do
    let s ← s.dropKey?
    if s.inBlock && !s.keyAllowed then none
    else
      let s := s.openBlock s.cursor.column s.count .blockMapping
      some (((s.moveTo s.cursor.next).allowKey s.inBlock).push .value)

/-- The name of an anchor, or a reference to one. -/
def anchored? (s : Scanner) (token : List Char → Token) : Option Scanner := do
  let s ← s.markKey?
  let (name, c) := s.cursor.next.span isNameCharacter
  let ended := endsWord c.rest || c.rest.head?.any fun x =>
    ['?', ':', ',', ']', '\x7d', '%', '@', '\x60'].contains x
  if name.isEmpty || !ended then none
  else some (((s.moveTo c).allowKey false).push (token name))

/-- The type of a node. Inside of brackets a comma may come directly behind it. -/
def tag? (s : Scanner) : Option Scanner := do
  let s ← s.markKey?
  let (handle, tag, c) ← readTag? s.cursor
  if endsWord c.rest || (!s.inBlock && c.rest.head? == some ',') then
    some (((s.moveTo c).allowKey false).push (.tag handle tag))
  else none

/-- A quoted scalar. -/
def quoted? (s : Scanner) (double : Bool) : Option Scanner := do
  let s ← s.markKey?
  let (text, c) ← readQuoted? double s.cursor
  some (((s.moveTo c).allowKey false).push (.scalar .quoted text))

/-- A block. -/
def block? (s : Scanner) (isFolded : Bool) : Option Scanner := do
  let s ← s.dropKey?
  let (text, c) ← readBlock? isFolded s.indent s.cursor.next
  some (((s.moveTo c).allowKey true).push (.scalar (if isFolded then .folded else .literal) text))

/-- A plain scalar. -/
def plain? (s : Scanner) : Option Scanner := do
  let s ← s.markKey?
  let (text, brokeLine, c) ← readPlain? (!s.inBlock) (s.indent + 1).toNat s.cursor
  some (((s.moveTo c).allowKey brokeLine).push (.scalar .plain text))

/-! ### All tokens -/

/-- Passes what separates tokens. A tab may only stand where no key may start. -/
def skipGap (fuel : Nat) (s : Scanner) : Scanner :=
  match fuel, s.cursor.rest with
  | fuel + 1, x :: _ =>
    if x == ' ' || (x == '\t' && !(s.inBlock && s.keyAllowed)) ||
        (x == '\ufeff' && s.cursor.column == 0) then
      skipGap fuel (s.moveTo s.cursor.next)
    else if x == '#' then skipGap fuel (s.moveTo (skipComment s.cursor))
    else if isBreak x then
      skipGap fuel ((s.moveTo s.cursor.next).allowKey (s.keyAllowed || s.inBlock))
    else s
  | _, _ => s

/-- Whether the character at the start of a token announces something other than a plain scalar. -/
def isIndicator (c : Char) : Bool :=
  ['#', '&', '*', '!', '|', '>', '\'', '"', '%', '@', '\x60'].contains c

/-- Whether a plain scalar may start with the given characters. -/
def startsPlain (inBlock : Bool) : List Char → Bool
  | [] => false
  | c :: rest =>
    if c == '-' then !endsWord rest
    else if c == '?' || c == ':' then inBlock && !endsWord rest
    else !isGap c && !isFlowIndicator c && !isIndicator c

/-- The next token, in front of which there is no gap. -/
def token? (s : Scanner) : Option Scanner :=
  match s.cursor.rest with
  | [] => none
  | c :: rest =>
    if c == '%' && s.cursor.column == 0 then s.directive?
    else if s.cursor.isMarker '-' then s.documentMarker? .documentStart
    else if s.cursor.isMarker '.' then s.documentMarker? .documentEnd
    else if c == '[' then s.openFlow? .openBracket
    else if c == '\x7b' then s.openFlow? .openBrace
    else if c == ']' then s.closeFlow? .closeBracket
    else if c == '\x7d' then s.closeFlow? .closeBrace
    else if c == ',' then s.indicator? 1 true .comma
    else if c == '-' && endsWord rest then s.dash?
    else if c == '?' && (!s.inBlock || endsWord rest) then s.question?
    else if c == ':' && (!s.inBlock || endsWord rest) then s.colon?
    else if c == '*' then s.anchored? .alias
    else if c == '&' then s.anchored? .anchor
    else if c == '!' then s.tag?
    else if c == '|' && s.inBlock then s.block? false
    else if c == '>' && s.inBlock then s.block? true
    else if c == '\'' then s.quoted? false
    else if c == '"' then s.quoted? true
    else if startsPlain s.inBlock s.cursor.rest then s.plain?
    else none

/-- The tokens up to the end of the text. -/
def finish? (fuel : Nat) (s : Scanner) : Option (List Token) :=
  match fuel with
  | 0 => none
  | fuel + 1 => do
    let s := s.skipGap s.cursor.rest.length
    if s.cursor.rest.isEmpty then
      let s ← (s.unindent (-1)).dropKey?
      some s.tokens.reverse
    else
      let s ← (s.unindent s.cursor.column).token?
      finish? fuel s

end Scanner

/-- The tokens of a text, unless some part of it is no token. -/
def tokens? (text : String) : Option (List Token) :=
  if text.toList.all isAllowed then
    let characters := unifyLineEnds text.toList
    (Scanner.start characters).finish? (characters.length + 1)
  else none

end GraphGrammar.Yaml
