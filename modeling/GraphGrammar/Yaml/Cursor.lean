/-!
# Places in a YAML text

A text is read through a cursor: what is left of it, and the line and column that were reached.
Line ends are unified beforehand, so that a line ends with one character. Two separators of Unicode
end a line as well.

## Main definitions

* `GraphGrammar.Yaml.unifyLineEnds`, `GraphGrammar.Yaml.isBreak`, `GraphGrammar.Yaml.isBlank`.
* `GraphGrammar.Yaml.Cursor` and how it moves.
-/

namespace GraphGrammar.Yaml

/-! ### Characters -/

/-- Whether a character ends a line. -/
def isBreak (c : Char) : Bool := c == '\n' || c == '\u2028' || c == '\u2029'

/-- Whether a character is a space or a tab. -/
def isBlank (c : Char) : Bool := c == ' ' || c == '\t'

/-- Whether a character may separate words. -/
def isGap (c : Char) : Bool := isBlank c || isBreak c

/-- Whether a character may stand in a name: it is a letter or digit of ASCII, a dash or a low
line. -/
def isNameCharacter (c : Char) : Bool := c.isAlphanum || c == '-' || c == '_'

/-- Whether a word ends in front of the given characters. -/
def endsWord : List Char → Bool
  | [] => true
  | c :: _ => isGap c

/-- Whether a character may occur in a text at all. -/
def isAllowed (c : Char) : Bool :=
  c == '\t' || c == '\n' || c == '\r' || (' ' ≤ c && c ≤ '~') || c == '\u0085' ||
    ('\u00a0' ≤ c && c != '\ufffe' && c != '\uffff')

/-- The characters with every line end written as one line feed. -/
def unifyLineEnds : List Char → List Char
  | [] => []
  | '\r' :: '\n' :: rest => '\n' :: unifyLineEnds rest
  | c :: rest => (if c = '\r' || c = '\u0085' then '\n' else c) :: unifyLineEnds rest

/-! ### Cursors -/

/-- A place in a text. -/
structure Cursor where
  /-- What comes next. -/
  rest : List Char
  /-- The number of line ends that were passed. -/
  line : Nat
  /-- The number of characters that were passed on the line. -/
  column : Nat
  /-- The number of characters that were passed. -/
  offset : Nat

namespace Cursor

/-- The start of a text. -/
def start (text : List Char) : Cursor := ⟨text, 0, 0, 0⟩

/-- The place behind the next character. -/
def next (c : Cursor) : Cursor :=
  match c.rest with
  | [] => c
  | x :: rest =>
    if isBreak x then ⟨rest, c.line + 1, 0, c.offset + 1⟩
    else ⟨rest, c.line, c.column + 1, c.offset + 1⟩

/-- The place behind the next `n` characters. -/
def skip (n : Nat) (c : Cursor) : Cursor :=
  match n with
  | 0 => c
  | n + 1 => skip n c.next

/-- The characters in front of the first that does not pass `p`, and the place there. -/
def span (p : Char → Bool) (c : Cursor) : List Char × Cursor :=
  let passed := c.rest.takeWhile p
  (passed, c.skip passed.length)

/-- Whether a document marker stands here: three equal characters at the start of a line, ending a
word. -/
def isMarker (mark : Char) (c : Cursor) : Bool :=
  c.column == 0 && c.rest.take 3 == [mark, mark, mark] && endsWord (c.rest.drop 3)

/-- Whether a document starts or ends here. -/
def isAnyMarker (c : Cursor) : Bool := c.isMarker '-' || c.isMarker '.'

end Cursor

end GraphGrammar.Yaml
