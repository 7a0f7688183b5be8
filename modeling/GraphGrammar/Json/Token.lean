import GraphGrammar.Codec.Hex
import GraphGrammar.Json.Numeral

/-!
# Tokens of JSON texts

A text is cut into tokens by a machine that reads one character at a time. What is no token gives
the token `invalid`, so that cutting a text never fails; the reader of values refuses it where it
matters.

An escaped code unit of a pair stands for a character only together with its partner. A text with a
half of a pair in it is *broken*: it is well formed, but stands for no string.

## Main definitions

* `GraphGrammar.Json.Token` and `GraphGrammar.Json.Token.scan`.
* `GraphGrammar.Json.Piece.join?` — the characters that a literal stands for.
-/

namespace GraphGrammar.Json

/-- What stands in a text literal. -/
inductive Piece where
  /-- A character, by itself or behind a backslash. -/
  | plain (c : Char)
  /-- A code unit of sixteen bits, written in hexadecimal digits. -/
  | unit (value : Nat)
deriving DecidableEq

namespace Piece

/-- Whether a code unit is the first half of a pair. -/
def isLeading (u : Nat) : Bool := 0xd800 ≤ u && u < 0xdc00

/-- Whether a code unit is the second half of a pair. -/
def isTrailing (u : Nat) : Bool := 0xdc00 ≤ u && u < 0xe000

/-- The characters that pieces stand for, unless half of a pair stands alone. -/
def join? : List Piece → Option (List Char)
  | [] => some []
  | plain c :: rest => (join? rest).map (c :: ·)
  | [unit u] => if isLeading u || isTrailing u then none else some [Char.ofNat u]
  | unit u :: unit v :: rest =>
    if isLeading u then
      if isTrailing v then
        (join? rest).map (Char.ofNat (0x10000 + 1024 * (u - 0xd800) + (v - 0xdc00)) :: ·)
      else none
    else if isTrailing u then none
    else (join? (unit v :: rest)).map (Char.ofNat u :: ·)
  | unit u :: plain c :: rest =>
    if isLeading u || isTrailing u then none
    else (join? (plain c :: rest)).map (Char.ofNat u :: ·)

end Piece

/-- A token. -/
inductive Token where
  /-- An opening brace. -/
  | openBrace
  /-- A closing brace. -/
  | closeBrace
  /-- An opening bracket. -/
  | openBracket
  /-- A closing bracket. -/
  | closeBracket
  /-- A colon. -/
  | colon
  /-- A comma. -/
  | comma
  /-- The word for nothing. -/
  | null
  /-- A truth value. -/
  | bool (value : Bool)
  /-- A number. -/
  | number (value : Numeral)
  /-- A text; nothing for a broken one. -/
  | string (value : Option String)
  /-- No token. -/
  | invalid
deriving DecidableEq

namespace Token

/-- What the machine is in the middle of. What was read of it comes last first. -/
inductive Mode where
  /-- Nothing. -/
  | ready
  /-- A word. -/
  | word (letters : List Char)
  /-- A number. -/
  | number (characters : List Char)
  /-- A text. -/
  | text (pieces : List Piece)
  /-- An escape in a text. -/
  | escape (pieces : List Piece)
  /-- The digits of a code unit in a text, of which `count` are missing. -/
  | unit (pieces : List Piece) (count value : Nat)
deriving DecidableEq

/-- The token of a word. -/
def ofWord (word : List Char) : Token :=
  if word = ['n', 'u', 'l', 'l'] then null
  else if word = ['t', 'r', 'u', 'e'] then bool true
  else if word = ['f', 'a', 'l', 's', 'e'] then bool false
  else invalid

/-- The token of a number. -/
def ofNumber (text : List Char) : Token :=
  match Numeral.ofText? text with
  | some value => number value
  | none => invalid

/-- Whether a character may stand in a number. -/
def isNumberCharacter (c : Char) : Bool :=
  c.isDigit || c == '-' || c == '+' || c == '.' || c == 'e' || c == 'E'

/-- Whether a character may separate tokens. -/
def isSpace (c : Char) : Bool := c == ' ' || c == '\n' || c == '\t' || c == '\r'

/-- One step between tokens. -/
def stepReady (c : Char) : Mode × List Token :=
  if isSpace c then (.ready, [])
  else if c = '\x7b' then (.ready, [openBrace])
  else if c = '\x7d' then (.ready, [closeBrace])
  else if c = '[' then (.ready, [openBracket])
  else if c = ']' then (.ready, [closeBracket])
  else if c = ':' then (.ready, [colon])
  else if c = ',' then (.ready, [comma])
  else if c = '"' then (.text [], [])
  else if c.isDigit || c == '-' then (.number [c], [])
  else if c.isAlpha then (.word [c], [])
  else (.ready, [invalid])

/-- The character that a letter stands for behind a backslash. -/
def escaped? (c : Char) : Option Char :=
  match c with
  | '"' => some '"'
  | '\\' => some '\\'
  | '/' => some '/'
  | 'b' => some '\x08'
  | 'f' => some '\x0c'
  | 'n' => some '\n'
  | 'r' => some '\r'
  | 't' => some '\t'
  | _ => none

/-- The token of a text that is complete. -/
def ofPieces (pieces : List Piece) : Token :=
  string ((Piece.join? pieces.reverse).map String.ofList)

/-- One step of the machine: its next state and the tokens that are complete. -/
def step (mode : Mode) (c : Char) : Mode × List Token :=
  match mode with
  | .ready => stepReady c
  | .word letters =>
    if c.isAlpha then (.word (c :: letters), [])
    else ((stepReady c).1, ofWord letters.reverse :: (stepReady c).2)
  | .number characters =>
    if isNumberCharacter c then (.number (c :: characters), [])
    else ((stepReady c).1, ofNumber characters.reverse :: (stepReady c).2)
  | .text pieces =>
    if c = '"' then (.ready, [ofPieces pieces])
    else if c = '\\' then (.escape pieces, [])
    else if c.toNat < 32 then (.ready, [invalid])
    else (.text (.plain c :: pieces), [])
  | .escape pieces =>
    if c = 'u' then (.unit pieces 4 0, [])
    else
      match escaped? c with
      | some d => (.text (.plain d :: pieces), [])
      | none => (.ready, [invalid])
  | .unit pieces count value =>
    match hexValue? c with
    | none => (.ready, [invalid])
    | some digit =>
      if count ≤ 1 then (.text (.unit (16 * value + digit) :: pieces), [])
      else (.unit pieces (count - 1) (16 * value + digit), [])

/-- The tokens that the end of the text completes. -/
def finish : Mode → List Token
  | .ready => []
  | .word letters => [ofWord letters.reverse]
  | .number characters => [ofNumber characters.reverse]
  | .text _ | .escape _ | .unit .. => [invalid]

/-- The tokens of the rest of a text. -/
def scanFrom (mode : Mode) : List Char → List Token
  | [] => finish mode
  | c :: rest => (step mode c).2 ++ scanFrom (step mode c).1 rest

/-- The tokens of a text. -/
def scan (text : String) : List Token := scanFrom .ready text.toList

end Token

end GraphGrammar.Json
