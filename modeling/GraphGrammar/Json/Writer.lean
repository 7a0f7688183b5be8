import GraphGrammar.Json.Value

/-!
# Writing JSON values

A value is written on one line without any space, or on many lines with two spaces for each level
of nesting. In texts only the quote, the backslash and the control characters are escaped. A broken
text is written as a lone half of a pair, which is read as a broken text again.

## Main definitions

* `GraphGrammar.Json.compact` and `GraphGrammar.Json.pretty`.
-/

namespace GraphGrammar.Json

/-- A character in a text literal. -/
def escape (c : Char) : List Char :=
  if c = '"' then ['\\', '"']
  else if c = '\\' then ['\\', '\\']
  else if c = '\x08' then ['\\', 'b']
  else if c = '\t' then ['\\', 't']
  else if c = '\n' then ['\\', 'n']
  else if c = '\x0c' then ['\\', 'f']
  else if c = '\r' then ['\\', 'r']
  else if c.toNat < 32 then
    ['\\', 'u', '0', '0', hexDigit (c.toNat / 16), hexDigit (c.toNat % 16)]
  else [c]

/-- The literal of a text. -/
def literal : Option String → List Char
  | some s => '"' :: s.toList.flatMap escape ++ ['"']
  | none => ['"', '\\', 'u', 'd', '8', '0', '0', '"']

/-- The letters of a truth value. -/
def boolWord (b : Bool) : List Char :=
  if b then ['t', 'r', 'u', 'e'] else ['f', 'a', 'l', 's', 'e']

mutual

/-- A value on one line. -/
def compactChars : Json → List Char
  | null => ['n', 'u', 'l', 'l']
  | bool b => boolWord b
  | number n => n.text.toList
  | string s => literal s
  | array [] => ['[', ']']
  | array (item :: items) => '[' :: compactChars item ++ compactItems items
  | object [] => ['\x7b', '\x7d']
  | object ((name, value) :: fields) =>
    '\x7b' :: literal name ++ ':' :: compactChars value ++ compactFields fields

/-- The items after the first, and the end of an array. -/
def compactItems : List Json → List Char
  | [] => [']']
  | item :: items => ',' :: compactChars item ++ compactItems items

/-- The fields after the first, and the end of an object. -/
def compactFields : List (Option String × Json) → List Char
  | [] => ['\x7d']
  | (name, value) :: fields =>
    ',' :: literal name ++ ':' :: compactChars value ++ compactFields fields

end

/-- A value as text on one line. -/
def compact (value : Json) : String := String.ofList (compactChars value)

/-- The start of a line at a level of nesting. -/
def newLine (level : Nat) : List Char := '\n' :: List.replicate (2 * level) ' '

mutual

/-- A value on many lines, the first of which has been started. -/
def prettyChars (level : Nat) : Json → List Char
  | null => ['n', 'u', 'l', 'l']
  | bool b => boolWord b
  | number n => n.text.toList
  | string s => literal s
  | array [] => ['[', ']']
  | array (item :: items) =>
    '[' :: newLine (level + 1) ++ prettyChars (level + 1) item ++ prettyItems level items
  | object [] => ['\x7b', '\x7d']
  | object ((name, value) :: fields) =>
    '\x7b' :: newLine (level + 1) ++ literal name ++ ':' :: ' ' :: prettyChars (level + 1) value ++
      prettyFields level fields

/-- The items after the first, and the end of an array. -/
def prettyItems (level : Nat) : List Json → List Char
  | [] => newLine level ++ [']']
  | item :: items =>
    ',' :: newLine (level + 1) ++ prettyChars (level + 1) item ++ prettyItems level items

/-- The fields after the first, and the end of an object. -/
def prettyFields (level : Nat) : List (Option String × Json) → List Char
  | [] => newLine level ++ ['\x7d']
  | (name, value) :: fields =>
    ',' :: newLine (level + 1) ++ literal name ++ ':' :: ' ' :: prettyChars (level + 1) value ++
      prettyFields level fields

end

/-- A value as text on many lines. -/
def pretty (value : Json) : String := String.ofList (prettyChars 0 value)

end GraphGrammar.Json
