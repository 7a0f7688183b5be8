import GraphGrammar.Codec.Hex
import GraphGrammar.Yaml.Cursor

/-!
# Tags of YAML texts

A tag names the type of a node. It is a list of bytes, and is written whole in angle brackets, or as
a *handle* and what comes behind it. A handle is a mark, two marks, or a word between marks; the
head of a document may say what a handle stands for.

Most characters that may stand in a tag are one byte. Other bytes are written as a percent sign and
two digits, as many at once as the first of them announces in UTF-8. A tag ends in front of a byte
that is zero.

## Main definitions

* `GraphGrammar.Yaml.Tag`, `GraphGrammar.Yaml.Tag.standard`, `GraphGrammar.Yaml.Tag.namesVariant`.
* `GraphGrammar.Yaml.readTag?` — the tag at a place, with its handle.
* `GraphGrammar.Yaml.readShorthand?` — a handle and what it stands for.
-/

namespace GraphGrammar.Yaml

/-- The name of a type. -/
structure Tag where
  /-- Its bytes, none of which is zero. -/
  bytes : List UInt8
deriving DecidableEq

namespace Tag

/-- The tag that bytes give. -/
def ofBytes (bytes : List UInt8) : Tag := ⟨bytes.takeWhile (· ≠ 0)⟩

/-- The tag that a text gives. -/
def ofText (s : String) : Tag := ofBytes s.toUTF8.toList

/-- The tag that a tag is when it stands behind another. -/
def append (t u : Tag) : Tag := ⟨t.bytes ++ u.bytes⟩

/-- The tag that is a mark alone. -/
def mark : Tag := ofText "!"

/-- What the tags of the standard types start with. -/
def standardStart : Tag := ofText "tag:yaml.org,2002:"

/-- The tag of a standard type. -/
def standard (name : String) : Tag := standardStart.append (ofText name)

/-- Whether a tag starts with a mark. -/
def isLocal (t : Tag) : Bool := t.bytes.head? == some 0x21

/-- Whether a tag names a variant: it starts with a mark, and it is a text. -/
def namesVariant (t : Tag) : Bool := t.isLocal && (String.fromUTF8? ⟨t.bytes.toArray⟩).isSome

end Tag

/-! ### Bytes of tags -/

/-- Whether a character may stand in a tag and is one byte of it. -/
def isTagCharacter (c : Char) : Bool :=
  isNameCharacter c || [';', '/', '?', ':', '@', '&', '=', '+', '$', '.', '!', '~', '*', '\'', '(',
    ')'].contains c

/-- The byte that a percent sign and two digits stand for. -/
def readEscapedByte? (c : Cursor) : Option (UInt8 × Cursor) :=
  match c.rest with
  | '%' :: d :: e :: _ => do
    some (UInt8.ofNat (16 * (← hexValue? d) + (← hexValue? e)), c.skip 3)
  | _ => none

/-- The number of bytes that belong to a first byte. -/
def followers? (b : UInt8) : Option Nat :=
  if b < 0x80 then some 0
  else if 0xc0 ≤ b && b < 0xe0 then some 1
  else if 0xe0 ≤ b && b < 0xf0 then some 2
  else if 0xf0 ≤ b && b < 0xf8 then some 3
  else none

/-- The bytes that belong to a first byte. -/
def readFollowers? (n : Nat) (c : Cursor) : Option (List UInt8 × Cursor) :=
  match n with
  | 0 => some ([], c)
  | n + 1 => do
    let (b, c) ← readEscapedByte? c
    if b < 0x80 || 0xc0 ≤ b then none
    else
      let (bytes, c) ← readFollowers? n c
      some (b :: bytes, c)

/-- A first byte and those that belong to it. -/
def readEscapedBytes? (c : Cursor) : Option (List UInt8 × Cursor) := do
  let (b, c) ← readEscapedByte? c
  let (bytes, c) ← readFollowers? (← followers? b) c
  some (b :: bytes, c)

/-- Reads on in a tag; what was read comes last first. Commas and brackets may stand in it if it is
`quoted`. -/
def readTagBytes? (quoted : Bool) (read : List UInt8) (fuel : Nat) (c : Cursor) :
    Option (List UInt8 × Cursor) :=
  match fuel, c.rest with
  | fuel + 1, x :: _ =>
    if x == '%' then do
      let (bytes, c) ← readEscapedBytes? c
      readTagBytes? quoted (bytes.reverse ++ read) fuel c
    else if isTagCharacter x || (quoted && (x == ',' || x == '[' || x == ']')) then
      readTagBytes? quoted (UInt8.ofNat x.toNat :: read) fuel c.next
    else some (read.reverse, c)
  | _, _ => some (read.reverse, c)

/-- The tag at a place, which has at least one byte there. -/
def readTagText? (quoted : Bool) (c : Cursor) : Option (Tag × Cursor) := do
  let (bytes, c) ← readTagBytes? quoted [] c.rest.length c
  if bytes.isEmpty then none else some (.ofBytes bytes, c)

/-! ### Handles -/

/-- The mark at a place, the word behind it, and whether another mark ends the word. -/
def readHandle (c : Cursor) : List Char × Bool × Cursor :=
  let (word, c) := c.next.span isNameCharacter
  if c.rest.head? == some '!' then (word, true, c.next) else (word, false, c)

/-- The handle with a word between two marks. -/
def closedHandle (word : List Char) : List Char := '!' :: word ++ ['!']

/-- The tag at a place, which starts with a mark, and its handle. A tag in angle brackets has no
handle, and neither has a mark alone. -/
def readTag? (c : Cursor) : Option (Option (List Char) × Tag × Cursor) :=
  if c.next.rest.head? == some '<' then do
    let (tag, c) ← readTagText? true (c.skip 2)
    if c.rest.head? == some '>' then some (none, tag, c.next) else none
  else
    match readHandle c with
    | (word, true, c) => do
      let (tag, c) ← readTagText? false c
      some (some (closedHandle word), tag, c)
    | (word, false, c) => do
      let read := word.reverse.map fun x => UInt8.ofNat x.toNat
      let (bytes, c) ← readTagBytes? false read c.rest.length c
      let tag := Tag.ofBytes bytes
      some (if tag = ⟨[]⟩ then (none, .mark, c) else (some ['!'], tag, c))

/-- A handle at a place, and behind a gap the tag that it stands for. -/
def readShorthand? (c : Cursor) : Option (List Char × Tag × Cursor) := do
  if c.rest.head? ≠ some '!' then none
  let (word, closed, c) := readHandle c
  if (!closed && !word.isEmpty) || !c.rest.head?.any isBlank then none
  let (tag, c) ← readTagText? true (c.span isBlank).2
  if endsWord c.rest then some (if closed then closedHandle word else ['!'], tag, c) else none

/-- What handles stand for by themselves. -/
def standardShorthands : List (List Char × Tag) :=
  [(['!'], .mark), (['!', '!'], .standardStart)]

end GraphGrammar.Yaml
