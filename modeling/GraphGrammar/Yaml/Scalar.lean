import GraphGrammar.Codec.Hex
import GraphGrammar.Yaml.Cursor

/-!
# Scalars of YAML texts

A scalar is written plainly, in quotes, or as an indented block. Between the lines of plain and
quoted scalars a single line end is read as a space, and of several the first is dropped. A block
keeps its line ends, or folds them in the same way.

## Main definitions

* `GraphGrammar.Yaml.Gap` — what lies between words.
* `GraphGrammar.Yaml.readPlain?`, `readQuoted?`, `readBlock?` — the scalar at a place.
-/

namespace GraphGrammar.Yaml

/-! ### Gaps -/

/-- Blanks and line ends between words. -/
structure Gap where
  /-- The blanks in front of the first line end. -/
  blanks : List Char
  /-- The line ends. -/
  breaks : List Char
  /-- The place behind the gap. -/
  after : Cursor

/-- What line ends are read as: one line feed as a space, and of several characters all but a
leading line feed. -/
def foldBreaks : List Char → List Char
  | ['\n'] => [' ']
  | '\n' :: more => more
  | breaks => breaks

/-- What a gap is read as. -/
def Gap.text (g : Gap) : List Char := if g.breaks.isEmpty then g.blanks else foldBreaks g.breaks

/-- Reads on in a gap; what was read comes last first. On new lines there must be no tab in front of
the column `indent`. -/
def readGapFrom? (indent : Nat) (blanks breaks : List Char) (fuel : Nat) (c : Cursor) :
    Option Gap :=
  match fuel, c.rest with
  | fuel + 1, x :: _ =>
    if isBlank x then
      if breaks.isEmpty then readGapFrom? indent (x :: blanks) breaks fuel c.next
      else if x == '\t' && c.column < indent then none
      else readGapFrom? indent blanks breaks fuel c.next
    else if isBreak x then readGapFrom? indent blanks (x :: breaks) fuel c.next
    else some ⟨blanks.reverse, breaks.reverse, c⟩
  | _, _ => some ⟨blanks.reverse, breaks.reverse, c⟩

/-- The gap at a place. -/
def readGap? (indent : Nat) (c : Cursor) : Option Gap := readGapFrom? indent [] [] c.rest.length c

/-! ### Plain scalars -/

/-- The indicators that end a plain scalar inside of brackets. -/
def isFlowIndicator (c : Char) : Bool :=
  c == ',' || c == '[' || c == ']' || c == '\x7b' || c == '\x7d'

/-- The word of a plain scalar at the front of the characters. Inside of brackets a colon must not
stand in front of an indicator. -/
def plainWord? (inFlow : Bool) : List Char → Option (List Char)
  | [] => some []
  | c :: rest =>
    if isGap c then some []
    else if inFlow && c == ':' && rest.head?.any (fun d => isFlowIndicator d || d == '?') then none
    else if c == ':' && endsWord rest then some []
    else if inFlow && isFlowIndicator c then some []
    else (plainWord? inFlow rest).map (c :: ·)

/-- Reads on in a plain scalar behind a gap. The result says whether the scalar ended behind a line
end. -/
def readPlainFrom? (inFlow : Bool) (indent : Nat) (read : List Char) (gap : Gap) :
    Nat → Option (List Char × Bool × Cursor)
  | 0 => none
  | fuel + 1 =>
    let c := gap.after
    let ended := some (read, !gap.breaks.isEmpty, c)
    if c.isAnyMarker || c.rest.head? == some '#' ||
        (!gap.breaks.isEmpty && !inFlow && c.column < indent) then ended
    else do
      let word ← plainWord? inFlow c.rest
      if word.isEmpty then ended
      else
        let after ← readGap? indent (c.skip word.length)
        readPlainFrom? inFlow indent (read ++ gap.text ++ word) after fuel

/-- The plain scalar at a place, whether a line ended behind it, and the place reached. It must be
indented to the column `indent`, except inside of brackets. -/
def readPlain? (inFlow : Bool) (indent : Nat) (c : Cursor) : Option (List Char × Bool × Cursor) :=
  readPlainFrom? inFlow indent [] ⟨[], [], c⟩ (c.rest.length + 1)

/-! ### Quoted scalars -/

/-- The character that a letter stands for behind a backslash. -/
def escaped? (c : Char) : Option Char :=
  [('0', '\x00'), ('a', '\x07'), ('b', '\x08'), ('t', '\t'), ('\t', '\t'), ('n', '\n'),
    ('v', '\x0b'), ('f', '\x0c'), ('r', '\r'), ('e', '\x1b'), (' ', ' '), ('"', '"'), ('/', '/'),
    ('\\', '\\'), ('N', '\u0085'), ('_', '\u00a0'), ('L', '\u2028'), ('P', '\u2029')].lookup c

/-- The number of digits that a letter announces behind a backslash. -/
def codeLength? (c : Char) : Option Nat := [('x', 2), ('u', 4), ('U', 8)].lookup c

/-- The character with the code that digits give. -/
def codeCharacter? (digits : List Char) : Option Char := do
  let code ← digits.foldlM (fun n d => do some (16 * n + (← hexValue? d))) 0
  if code.isValidChar then some (Char.ofNat code) else none

/-- Reads on in a quoted scalar; what was read comes last first. -/
def readQuotedFrom? (double : Bool) (read : List Char) (fuel : Nat) (c : Cursor) :
    Option (List Char × Cursor) :=
  match fuel, c.rest with
  | fuel + 1, x :: rest =>
    if c.isAnyMarker then none
    else if isGap x then do
      let gap ← readGap? 0 c
      readQuotedFrom? double (gap.text.reverse ++ read) fuel gap.after
    else if x == '\'' && !double then
      if rest.head? == some '\'' then readQuotedFrom? double ('\'' :: read) fuel (c.skip 2)
      else some (read.reverse, c.next)
    else if x == '"' && double then some (read.reverse, c.next)
    else if x == '\\' && double then do
      let letter ← rest.head?
      if isBreak letter then
        let gap ← readGap? 0 (c.skip 2)
        readQuotedFrom? double (gap.breaks.reverse ++ read) fuel gap.after
      else
        match codeLength? letter with
        | some n =>
          let digits := (rest.drop 1).take n
          if digits.length < n then none
          else readQuotedFrom? double ((← codeCharacter? digits) :: read) fuel (c.skip (2 + n))
        | none => readQuotedFrom? double ((← escaped? letter) :: read) fuel (c.skip 2)
    else readQuotedFrom? double (x :: read) fuel c.next
  | _, _ => none

/-- The quoted scalar whose opening quote stands at a place, and the place behind it. -/
def readQuoted? (double : Bool) (c : Cursor) : Option (List Char × Cursor) :=
  readQuotedFrom? double [] c.rest.length c.next

/-! ### Blocks -/

/-- What becomes of the line ends behind a block. -/
inductive Chomping where
  /-- All are dropped. -/
  | strip
  /-- The first is kept. -/
  | clip
  /-- All are kept. -/
  | keep

/-- The chomping and the indentation that the head of a block gives, and the place behind them. -/
def readBlockHead? (c : Cursor) : Option (Chomping × Option Nat × Cursor) :=
  let chomping? (c : Cursor) : Option (Chomping × Cursor) :=
    match c.rest.head? with
    | some '+' => some (.keep, c.next)
    | some '-' => some (.strip, c.next)
    | _ => none
  let digit? (c : Cursor) : Option (Nat × Cursor) :=
    (c.rest.head?.filter (·.isDigit)).map fun d => (d.toNat - 48, c.next)
  let (chomping, indentation, c) :=
    match chomping? c with
    | some (chomping, c) =>
      match digit? c with
      | some (n, c) => (chomping, some n, c)
      | none => (chomping, none, c)
    | none =>
      match digit? c with
      | some (n, c) =>
        match chomping? c with
        | some (chomping, c) => (chomping, some n, c)
        | none => (.clip, some n, c)
      | none => (.clip, none, c)
  if indentation = some 0 then none else some (chomping, indentation, c)

/-- Passes the comment that may stand at a place. -/
def skipComment (c : Cursor) : Cursor :=
  if c.rest.head? == some '#' then (c.span fun x => !isBreak x).2 else c

/-- Passes blanks, a comment and the end of the line, if there is nothing else. -/
def finishLine? (c : Cursor) : Option Cursor :=
  let c := skipComment (c.span isBlank).2
  match c.rest with
  | [] => some c
  | x :: _ => if isBreak x then some c.next else none

/-- Passes empty lines and the indentation in front of a line of a block, as far as the column
`indent`, if it is known. The result has the line ends and the largest column that was reached. -/
def readBlockBreaks? (indent : Option Nat) (breaks : List Char) (reached : Nat) (fuel : Nat)
    (c : Cursor) : Option (List Char × Nat × Cursor) :=
  match fuel with
  | 0 => none
  | fuel + 1 =>
    let spaces := (c.rest.takeWhile (· == ' ')).length
    let c := c.skip (match indent with
      | some n => min spaces (n - c.column)
      | none => spaces)
    let reached := max reached c.column
    match c.rest with
    | [] => some (breaks.reverse, reached, c)
    | x :: _ =>
      if x == '\t' && indent.all (c.column < ·) then none
      else if isBreak x then readBlockBreaks? indent (x :: breaks) reached fuel c.next
      else some (breaks.reverse, reached, c)

/-- Reads the lines of a block that are indented to the column `indent`. Given are what was read,
the line end behind it, whether its last line started with a blank, and the further line ends. The
result has the text and the two kinds of line ends behind it. -/
def readBlockLines? (folded : Bool) (indent : Nat) (read leading : List Char) (leadingBlank : Bool)
    (trailing : List Char) (fuel : Nat) (c : Cursor) :
    Option (List Char × List Char × List Char × Cursor) :=
  match fuel with
  | 0 => none
  | fuel + 1 =>
    if c.column ≠ indent || c.rest.isEmpty then some (read, leading, trailing, c)
    else do
      let startsBlank := c.rest.head?.any isBlank
      let between :=
        if folded && leading == ['\n'] && !leadingBlank && !startsBlank then
          if trailing.isEmpty then [' '] else trailing
        else leading ++ trailing
      let (line, c) := c.span fun x => !isBreak x
      let leading := c.rest.take 1
      let (breaks, _, c) ← readBlockBreaks? (some indent) [] 0 (c.rest.length + 1) c.next
      readBlockLines? folded indent (read ++ between ++ line) leading startsBlank breaks fuel c

/-- The block behind its indicator, in a collection indented to the column `outer` if it is in one,
and the place behind it. -/
def readBlock? (folded : Bool) (outer : Int) (c : Cursor) : Option (List Char × Cursor) := do
  let (chomping, indentation, c) ← readBlockHead? c
  let c ← finishLine? c
  let fixed := indentation.map fun n => (max outer 0).toNat + n
  let (breaks, reached, c) ← readBlockBreaks? fixed [] 0 (c.rest.length + 1) c
  let indent := fixed.getD (max reached (max (outer + 1) 1).toNat)
  let (text, leading, trailing, c) ←
    readBlockLines? folded indent [] [] false breaks (c.rest.length + 1) c
  some (match chomping with
    | .strip => text
    | .clip => text ++ leading
    | .keep => text ++ leading ++ trailing, c)

end GraphGrammar.Yaml
