import GraphGrammar.Yaml.Resolve

/-!
# Writing YAML scalars

A text is written plainly when it is then read back as the same text. Otherwise it is put into
single quotes, and if it has characters that need an escape, into double quotes. A text of several
lines is written as a block.

## Main definitions

* `GraphGrammar.Yaml.isPlainSafe` — whether a text may be written plainly.
* `GraphGrammar.Yaml.textLine` — a text as a scalar at the end of a line.
-/

namespace GraphGrammar.Yaml

/-- Whether a character can be written as it is. -/
def isPrintable (c : Char) : Bool :=
  c == '\n' || (' ' ≤ c && c ≤ '~') ||
    ('\u00a0' ≤ c && c != '\ufeff' && c != '\ufffe' && c != '\uffff')

/-! ### Choosing a form -/

/-- Whether a text could be taken for something other than a scalar: it starts with an indicator, or
has a colon in front of a gap or a number sign behind one. -/
def hasIndicator (isFirst afterGap : Bool) : List Char → Bool
  | [] => false
  | c :: rest =>
    (if isFirst then
      ['#', ',', '[', ']', '\x7b', '\x7d', '&', '*', '!', '|', '>', '\'', '"', '%', '@',
        '\x60'].contains c || (['?', ':', '-'].contains c && endsWord rest)
    else (c == ':' && endsWord rest) || (c == '#' && afterGap)) ||
    hasIndicator false (isGap c) rest

/-- Whether a text starts like a marker between documents. -/
def startsLikeMarker (text : List Char) : Bool :=
  text.take 3 == ['-', '-', '-'] || text.take 3 == ['.', '.', '.']

/-- Whether a text may be written plainly. -/
def isPlainSafe (s : String) : Bool :=
  let text := s.toList
  plainMeaning s == .text s && !isPaddedDigits s && !hasIndicator true true text &&
    !startsLikeMarker text && !text.any isBreak && text.head? != some ' ' &&
    text.getLast? != some ' ' && text.all isPrintable

/-- Whether a space stands in front of a line end. -/
def hasSpaceBeforeBreak : List Char → Bool
  | [] => false
  | c :: rest => (c == ' ' && rest.head?.any isBreak) || hasSpaceBeforeBreak rest

/-- Whether a space stands behind a line end. -/
def hasSpaceAfterBreak : List Char → Bool
  | [] => false
  | c :: rest => (isBreak c && rest.head? == some ' ') || hasSpaceAfterBreak rest

/-- Whether a text may be written in single quotes. -/
def isQuoteSafe (text : List Char) : Bool :=
  text.all isPrintable && !hasSpaceBeforeBreak text && !hasSpaceAfterBreak text

/-- Whether a text may be written as a block. -/
def isBlockSafe (text : List Char) : Bool :=
  text.all isPrintable && !hasSpaceBeforeBreak text && text.getLast? != some ' '

/-! ### Forms -/

/-- What stands between single quotes for a text. A quote is written twice, and what comes behind a
line end is indented by `indent` spaces. -/
def quotedCharacters (indent : Nat) (startsLine : Bool) : List Char → List Char
  | [] => if startsLine then List.replicate indent ' ' else []
  | c :: rest =>
    (if startsLine && !isBreak c then List.replicate indent ' ' else []) ++
      (if c = '\'' then ['\'', '\''] else [c]) ++ quotedCharacters indent (isBreak c) rest

/-- A text in single quotes. -/
def singleQuoted (indent : Nat) (text : List Char) : String :=
  "'" ++ String.ofList (quotedCharacters indent false text) ++ "'"

/-- The letters that stand for some characters behind a backslash. -/
def escapeLetters : List (Char × Char) :=
  [('\x00', '0'), ('\x07', 'a'), ('\x08', 'b'), ('\t', 't'), ('\n', 'n'), ('\x0b', 'v'),
    ('\x0c', 'f'), ('\r', 'r'), ('\x1b', 'e'), ('"', '"'), ('\\', '\\'), ('\u0085', 'N'),
    ('\u2028', 'L'), ('\u2029', 'P')]

/-- A number as `n` upper-case hexadecimal digits. -/
def upperHex (n value : Nat) : List Char :=
  match n with
  | 0 => []
  | n + 1 => upperHex n (value / 16) ++ [(hexDigit (value % 16)).toUpper]

/-- A character in double quotes. -/
def doubleQuotedCharacter (c : Char) : List Char :=
  match escapeLetters.lookup c with
  | some letter => ['\\', letter]
  | none =>
    if isPrintable c then [c]
    else if c.toNat < 0x100 then ['\\', 'x'] ++ upperHex 2 c.toNat
    else if c.toNat < 0x10000 then ['\\', 'u'] ++ upperHex 4 c.toNat
    else ['\\', 'U'] ++ upperHex 8 c.toNat

/-- A text in double quotes. -/
def doubleQuoted (text : List Char) : String :=
  "\"" ++ String.ofList (text.flatMap doubleQuotedCharacter) ++ "\""

/-- The lines of a text, each indented by `indent` spaces unless it is empty. -/
def indentLines (indent : Nat) (startsLine : Bool) : List Char → List Char
  | [] => []
  | c :: rest =>
    (if startsLine && !isBreak c then List.replicate indent ' ' else []) ++
      c :: indentLines indent (isBreak c) rest

/-- A text as a block that keeps its lines, indented by `indent` spaces. The last line is ended if
the text does not end it. -/
def literalBlock (indent : Nat) (text : List Char) : String :=
  let hint := if text.head?.any fun c => c == ' ' || isBreak c then "2" else ""
  let chomping :=
    match text.reverse with
    | [] => "-"
    | c :: rest =>
      if !isBreak c then "-" else if rest.head?.all isBreak then "+" else ""
  "|" ++ hint ++ chomping ++ "\n" ++ String.ofList (indentLines indent true text) ++
    (if text.getLast?.any isBreak then "" else "\n")

/-- A text as a scalar at the end of a line, with the end of its last line. Its further lines are
indented by `indent` spaces. -/
def textLine (indent : Nat) (s : String) : String :=
  let text := s.toList
  if text.contains '\n' then
    if isBlockSafe text then literalBlock indent text else doubleQuoted text ++ "\n"
  else if isPlainSafe s then s ++ "\n"
  else if isQuoteSafe text then singleQuoted indent text ++ "\n"
  else doubleQuoted text ++ "\n"

end GraphGrammar.Yaml
